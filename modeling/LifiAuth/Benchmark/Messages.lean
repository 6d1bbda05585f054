import LifiAuth.Protocol.Constants
import LifiAuth.Support.Strtoul

/-!
# Messages of the benchmark

What `pico_speed_test_sender.c` sends during a test, in plain text between the preamble
and a newline, and the rates that its 'test' command and the receiver accept.
-/

namespace LifiAuth

/-- `b >= 1000 && b <= 4000000`. -/
def acceptsBaud (b : UInt32) : Bool :=
  1000 ≤ b && b ≤ 4000000

/-- The bytes that `lifi_send_message` puts on the line. -/
def lifiMessage (msg : List UInt8) : List UInt8 :=
  preamble ++ msg ++ [10]

inductive TestMessage where
  | baud (rate : UInt32)
  | testStart
  | pkt (i : UInt32)
  | testEnd (sent : UInt32)
  | done
  deriving DecidableEq

namespace TestMessage

/-- `%04lu`. -/
def paddedDecimal (n : ℕ) : List UInt8 :=
  List.replicate (4 - (decimal n).length) 48 ++ decimal n

/-- What `snprintf` writes to `tmp`. -/
def text : TestMessage → List UInt8
  | baud rate => ascii "__BAUD:" ++ (decimal rate.toNat ++ ascii "__")
  | testStart => ascii "__TEST_START__"
  | pkt i => ascii "PKT" ++ paddedDecimal i.toNat
  | testEnd sent => ascii "__TEST_END:" ++ (decimal sent.toNat ++ ascii "__")
  | done => ascii "__DONE__"

def IsPkt : TestMessage → Prop
  | pkt _ => True
  | _ => False

instance : DecidablePred IsPkt
  | pkt _ => isTrue trivial
  | baud _ | testStart | testEnd _ | done => isFalse id

def IsEnd : TestMessage → Prop
  | testEnd _ => True
  | _ => False

instance : DecidablePred IsEnd
  | testEnd _ => isTrue trivial
  | baud _ | testStart | pkt _ | done => isFalse id

theorem length_decimal_le (n : UInt32) : (decimal n.toNat).length ≤ 10 := by
  have hlt := n.toNat_lt
  rw [length_decimal_le_iff (by decide)]
  omega

/-- Every text fits into `tmp[48]`. -/
theorem length_text_lt (m : TestMessage) : m.text.length < 48 := by
  cases m with
  | baud rate =>
      have hlen := length_decimal_le rate
      simp [text, ascii]
      omega
  | testStart => decide
  | pkt i =>
      have hlen := length_decimal_le i
      simp [text, ascii, paddedDecimal]
      omega
  | testEnd sent =>
      have hlen := length_decimal_le sent
      simp [text, ascii]
      omega
  | done => decide

/-- No text ends the message it is in before its end. -/
theorem text_mem {m : TestMessage} {c : UInt8} (hc : c ∈ m.text) : c ≠ 10 ∧ c ≠ 13 ∧ c ≠ 0 := by
  have hdigit {n : ℕ} (hc : c ∈ decimal n) : c ≠ 10 ∧ c ≠ 13 ∧ c ≠ 0 := by
    have h := isDigit_of_mem_decimal hc
    exact ⟨ne_of_isDigit h rfl, ne_of_isDigit h rfl, ne_of_isDigit h rfl⟩
  have hascii (s : List UInt8) (hs : ∀ c ∈ s, c ≠ 10 ∧ c ≠ 13 ∧ c ≠ 0) (hc : c ∈ s) :
      c ≠ 10 ∧ c ≠ 13 ∧ c ≠ 0 := hs c hc
  cases m with
  | baud rate =>
      rcases List.mem_append.mp hc with hc | hc
      · exact hascii _ (by decide) hc
      rcases List.mem_append.mp hc with hc | hc
      · exact hdigit hc
      · exact hascii _ (by decide) hc
  | testStart => exact hascii _ (by decide) hc
  | pkt i =>
      rcases List.mem_append.mp hc with hc | hc
      · exact hascii _ (by decide) hc
      rcases List.mem_append.mp hc with hc | hc
      · rw [List.eq_of_mem_replicate hc]
        decide
      · exact hdigit hc
  | testEnd sent =>
      rcases List.mem_append.mp hc with hc | hc
      · exact hascii _ (by decide) hc
      rcases List.mem_append.mp hc with hc | hc
      · exact hdigit hc
      · exact hascii _ (by decide) hc
  | done => exact hascii _ (by decide) hc

end TestMessage

end LifiAuth
