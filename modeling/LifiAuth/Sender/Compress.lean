import LifiAuth.Sender.Framing
import LifiAuth.Support.Streamer

/-!
# Compression before encryption

The automatic compression of long messages.  The heatshrink encoder is a
parameter: an object with the three calls the sender makes.
-/

namespace LifiAuth

open Support

/-- `heatshrink_encoder` as `heatshrink_encoder_alloc(8, 4)` returns it. -/
abbrev HeatshrinkEncoder := Streamer UInt8 UInt8

/-- `sizeof(compressed_buf)`, and of the other two message buffers. -/
def msgBufSize : ℕ := 8192

/-- The input buffer of an encoder with window 8. -/
def encoderWindow : ℕ := 256

variable (hse : HeatshrinkEncoder)

/-- The sender's use of the encoder: one sink, the poll loop, and one poll if
`finish` asks for it.  How much the sink took is not looked at. -/
def compress (msg : List UInt8) : List UInt8 :=
  let (_, s) := hse.sink hse.alloc msg
  let (out, s) := hse.pollLoop msgBufSize (msgBufSize + 1) s []
  let (more, s) := hse.finish s
  if more then out ++ (hse.poll s (msgBufSize - out.length)).2.1 else out

/-- The message type and the payload to encrypt. -/
def autoCompress (encoderAlloc : Bool) (msg : List UInt8) :
    DataType × List UInt8 :=
  if msg.length > 128 ∧ encoderAlloc then
    let compressed := compress hse msg
    if compressed.length < msg.length ∧ compressed.length < msgBufSize then
      (.file, compressed)
    else (.encrypted, msg)
  else (.encrypted, msg)

/-! ## What is compressed -/

variable {hse} {enc : Bool → List UInt8 → List UInt8}
  {Rep : hse.State → Bool → List UInt8 → List UInt8 → Prop}

/-- The result is the encoding of what the sink took, unless it does not fit the
buffer. -/
theorem compress_cases (henc : hse.Computes enc Rep) {msg : List UInt8} {k : ℕ}
    (hsink : (hse.sink hse.alloc msg).1 = some k) :
    compress hse msg = enc true (msg.take k) ∨
      msgBufSize ≤ (compress hse msg).length ∧
        msgBufSize ≤ (enc true (msg.take k)).length := by
  have hbuf : ([] : List UInt8).length < msgBufSize := by decide
  have hsunk := henc.sink henc.alloc hsink
  rw [List.nil_append] at hsunk
  obtain ⟨hrep, hout⟩ := henc.pollLoop hsunk hbuf msgBufSize
  simp only [compress]
  generalize hse.pollLoop msgBufSize (msgBufSize + 1)
    (hse.sink hse.alloc msg).2 [] = r at hrep hout ⊢
  have hfinished := henc.finish hrep
  have hwritten := (henc.written hfinished).length_le
  rcases hout with hfull | ⟨hlt, -⟩
  · right
    refine ⟨?_, hfull ▸ hwritten⟩
    split
    · rw [List.length_append, hfull]
      exact Nat.le_add_right _ _
    · exact hfull.ge
  · split
    · -- the one poll after `finish`
      have hrep' := henc.poll hfinished (Nat.sub_pos_of_lt hlt)
      rcases henc.poll_cases hfinished hlt with hfull | ⟨-, -, hall⟩
      · exact Or.inr ⟨hfull.ge, hfull ▸ (henc.written hrep').length_le⟩
      · exact Or.inl hall
    · next hdone =>
        rw [Bool.not_eq_true] at hdone
        exact Or.inl (henc.finish_done hrep hdone)

/-- `heatshrink_encoder_sink` into a new encoder. -/
def TakesWindow (hse : HeatshrinkEncoder) : Prop :=
  ∀ msg, (hse.sink hse.alloc msg).1 = some (min encoderWindow msg.length)

/-- A message that is sent compressed: a long one whose first window has an
encoding shorter than the whole message. -/
def SentAsFile (encode : List UInt8 → List UInt8) (encoderAlloc : Bool)
    (msg : List UInt8) : Prop :=
  128 < msg.length ∧ encoderAlloc = true ∧
    (encode (msg.take encoderWindow)).length < msg.length

instance (encode : List UInt8 → List UInt8) (encoderAlloc : Bool)
    (msg : List UInt8) : Decidable (SentAsFile encode encoderAlloc msg) :=
  inferInstanceAs (Decidable (_ ∧ _))

/-- The type and payload of a message.  What is compressed is its first window. -/
theorem autoCompress_eq (henc : hse.Computes enc Rep) (hsink : TakesWindow hse)
    {msg : List UInt8} (hlen : msg.length < msgBufSize) (encoderAlloc : Bool) :
    autoCompress hse encoderAlloc msg =
      if SentAsFile (enc true) encoderAlloc msg then
        (.file, enc true (msg.take encoderWindow))
      else (.encrypted, msg) := by
  have htake : msg.take (min encoderWindow msg.length) = msg.take encoderWindow := by
    rw [← List.take_take, List.take_length]
  have hcases := compress_cases henc (hsink msg)
  rw [htake] at hcases
  have hshort : (compress hse msg).length < msg.length ↔
      (enc true (msg.take encoderWindow)).length < msg.length := by
    rcases hcases with heq | ⟨hcomp, henc⟩
    · rw [heq]
    · exact iff_of_false (by omega) (by omega)
  rw [autoCompress]
  by_cases hfile : SentAsFile (enc true) encoderAlloc msg
  · obtain ⟨hlong, halloc, hlt⟩ := hfile
    have hcomp := hshort.mpr hlt
    have heq : compress hse msg = enc true (msg.take encoderWindow) := by
      rcases hcases with heq | ⟨hbig, -⟩
      · exact heq
      · omega
    rw [if_pos ⟨hlong, halloc⟩, if_pos ⟨hcomp, hcomp.trans hlen⟩, heq,
      if_pos ⟨hlong, halloc, hlt⟩]
  · rw [if_neg hfile]
    by_cases hlong : msg.length > 128 ∧ encoderAlloc = true
    · rw [if_pos hlong]
      refine if_neg ?_
      rintro ⟨hcomp, -⟩
      exact hfile ⟨hlong.1, hlong.2, hshort.mp hcomp⟩
    · rw [if_neg hlong]

end LifiAuth
