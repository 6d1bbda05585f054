import LifiAuth.Protocol.HeatshrinkCalls
import LifiAuth.System.Fidelity

/-!
# Fidelity with heatshrink itself

The sender's compression and the receiver's decompression with the encoder and the
decoder of the repository in the places of the parameters.  The code of one window never
comes near the size of the sender's buffer, so that the loop around `poll` takes one
round, and any message that is longer than such a code is cut to one window.
-/

namespace LifiAuth

open Support Heatshrink

/-! ## The sender -/

/-- The code of one window. -/
theorem length_compressed_window_le (msg : List UInt8) :
    (compressed (msg.take encoderWindow)).length ≤ 288 := by
  have hcode := length_compressed_le (msg.take encoderWindow)
  have htake := List.length_take_le encoderWindow msg
  have hwindow : encoderWindow = 256 := rfl
  omega

theorem takesWindow_hse (searchIndex : ℕ → Option ℕ) : TakesWindow (hse searchIndex) := by
  intro msg
  have htaken : (if 256 < msg.length then 256 else msg.length) = min 256 msg.length := by
    rw [Nat.min_def]
    split <;> split <;> omega
  exact congrArg some htaken

/-- What a new encoder takes of a message. -/
theorem between_sink_hse (searchIndex : ℕ → Option ℕ) (msg : List UInt8) :
    Between (Hse.sink (.reset searchIndex) msg).2 (msg.take encoderWindow) [] := by
  have htaken : (Hse.sink (.reset searchIndex) msg).1 = some (min encoderWindow msg.length) :=
    takesWindow_hse searchIndex msg
  have htake : msg.take (min encoderWindow msg.length) = msg.take encoderWindow := by
    rw [← List.take_take, List.take_length]
  have hsunk := (Between.reset searchIndex).sink msg
  rwa [htaken, Option.getD_some, htake, List.nil_append] at hsunk

/-- A poll into a buffer that has room for more than the code gets all there is. -/
theorem poll_of_room {e : Hse} {xs ys : List UInt8} {n : ℕ} (h : Between e xs ys)
    (hroom : (compressed xs).length < ys.length + n) :
    (e.poll n).1 = false ∧
      ((e.poll n).2.2.state = .notFull ∨ (e.poll n).2.2.state = .done) := by
  have hbefore := h.encoded.prefix_taken.length_le
  have hafter := (h.poll n).encoded.prefix_taken.length_le
  have hn : 0 < n := by omega
  rw [List.length_append] at hafter
  rcases (Hse.poll_spec h.encoded hn).full_or with hfull | hend
  · omega
  · exact hend

/-- The sender's loop around the encoder makes the code of the first window. -/
theorem compress_hse (searchIndex : ℕ → Option ℕ) (msg : List UInt8) :
    compress (hse searchIndex) msg = compressed (msg.take encoderWindow) := by
  have hsmall := length_compressed_window_le msg
  have hbuf : msgBufSize = 8192 := rfl
  have hsunk := between_sink_hse searchIndex msg
  generalize hfirst : Hse.sink (.reset searchIndex) msg = first at hsunk
  obtain ⟨hmore, -⟩ := poll_of_room (n := msgBufSize) hsunk (by omega)
  -- the loop takes one round
  have hloop : (hse searchIndex).pollLoop msgBufSize (msgBufSize + 1) first.2 [] =
      (Hse.poll first.2 msgBufSize).2 := by
    have hcond : ¬ ((Hse.poll first.2 msgBufSize).1 = true ∧
        (Hse.poll first.2 msgBufSize).2.1.length < msgBufSize) := by
      rw [hmore]
      rintro ⟨hmore, -⟩
      cases hmore
    exact if_neg hcond
  have hpolled := (hsunk.poll msgBufSize).finish
  rw [List.nil_append] at hpolled
  have hlen := hpolled.encoded.prefix_taken.length_le
  have hcompress : compress (hse searchIndex) msg =
      if (Hse.finish (Hse.poll first.2 msgBufSize).2.2).1 = true then
        (Hse.poll first.2 msgBufSize).2.1 ++
          (Hse.poll (Hse.finish (Hse.poll first.2 msgBufSize).2.2).2
            (msgBufSize - (Hse.poll first.2 msgBufSize).2.1.length)).2.1
      else (Hse.poll first.2 msgBufSize).2.1 := by
    have hsink : (hse searchIndex).sink (hse searchIndex).alloc msg = first := hfirst
    rw [compress, hsink]
    dsimp only
    rw [hloop]
    rfl
  rw [hcompress]
  split
  · -- the last poll ends it
    have hroom : (compressed (msg.take encoderWindow)).length <
        (Hse.poll first.2 msgBufSize).2.1.length +
          (msgBufSize - (Hse.poll first.2 msgBufSize).2.1.length) := by
      omega
    have hlast := hpolled.poll (msgBufSize - (Hse.poll first.2 msgBufSize).2.1.length)
    have hpos : 0 < msgBufSize - (Hse.poll first.2 msgBufSize).2.1.length := by
      omega
    have hfin := (Hse.poll_spec hpolled.encoded hpos).finishing
    obtain ⟨-, hnotFull | hdone⟩ := poll_of_room hpolled hroom
    · exact absurd hnotFull (hlast.encoded.state_ne_notFull hfin)
    · exact hlast.encoded.eq_compressed hdone
  · next hend =>
      have hdone : (Hse.finish (Hse.poll first.2 msgBufSize).2.2).2.state = .done := by
        simpa [Hse.finish] using hend
      exact hpolled.encoded.eq_compressed hdone

theorem autoCompress_hse (searchIndex : ℕ → Option ℕ) (encoderAlloc : Bool)
    (msg : List UInt8) :
    autoCompress (hse searchIndex) encoderAlloc msg =
      if SentAsFile compressed encoderAlloc msg then
        (.file, compressed (msg.take encoderWindow))
      else (.encrypted, msg) := by
  have hsmall := length_compressed_window_le msg
  have hbuf : msgBufSize = 8192 := rfl
  rw [autoCompress, compress_hse]
  by_cases hfile : SentAsFile compressed encoderAlloc msg
  · obtain ⟨hlong, halloc, hlt⟩ := id hfile
    rw [if_pos ⟨hlong, halloc⟩, if_pos ⟨hlt, by omega⟩, if_pos hfile]
  · rw [if_neg hfile]
    by_cases hlong : msg.length > 128 ∧ encoderAlloc = true
    · rw [if_pos hlong]
      refine if_neg ?_
      rintro ⟨hlt, -⟩
      exact hfile ⟨hlong.1, hlong.2, hlt⟩
    · rw [if_neg hlong]

/-! ## Both ends -/

/-- The receiver's decoder gives the first window back. -/
theorem recoveredPayload_compressed (msg : List UInt8) :
    recoveredPayload (hsd 512) true .file (compressed (msg.take encoderWindow)) =
      some (msg.take encoderWindow) := by
  have hsize : (decode (compressed (msg.take encoderWindow))).length < decompressedSize := by
    have htake := List.length_take_le encoderWindow msg
    have hwindow : encoderWindow < decompressedSize := by decide
    rw [decode_compressed]
    omega
  have hout := decompress_eq (computes_hsd 512) (progresses_hsd (by decide)) hsize
  rw [decode_compressed] at hout
  exact hout

variable {m : Mbedtls} {p : Pico} {d : Dash} {msg : List UInt8} {picoEnv : PicoEnv}
  {line : List RxEvent}

/-- With heatshrink at both ends the receiver recovers a message as it was typed
exactly if it fits one window or is no longer than the code of its first window, which
has at most 288 bytes; of any other it recovers the first window and no more. -/
theorem message_recovered_hse (api : SstApi) (searchIndex : ℕ → Option ℕ) (hm : m.Lawful)
    (htotal : m.Total) (hsession : InSession p d) (hcmd : ¬ ascii "CMD:" <+: msg)
    (hlen : msg.length < msgBufSize) (halloc : picoEnv.encoderAlloc = true)
    (env : DashEnv)
    (hline : Carries line
      ((handleLine m (hse searchIndex) picoEnv msg p).2.flatMap PicoOut.lifiBytes)) :
    let received := recoveredMessage m (hsd 512) api true env d line
    (received = some msg ↔ msg.length ≤ 256 ∨
        msg.length ≤ (compressed (msg.take 256)).length) ∧
      (received ≠ some msg → received = some (msg.take 256)) ∧
      (288 < msg.length → received = some (msg.take 256)) := by
  intro received
  have hsmall := length_compressed_window_le msg
  have hmax : maxCtextLen = 8164 := by decide
  have hwindow : encoderWindow = 256 := rfl
  have hreceived : received =
      if SentAsFile compressed true msg then some (msg.take 256) else some msg := by
    have hrecovered := recoveredMessage_eq (hse searchIndex) (hsd 512) api hm htotal
      hsession hcmd hlen true picoEnv env hline
    rw [halloc, autoCompress_hse] at hrecovered
    refine hrecovered.trans ?_
    by_cases hfile : SentAsFile compressed true msg
    · rw [if_pos hfile, if_pos hfile, recoveredPayload_compressed]
      exact if_pos (by dsimp only; omega)
    · rw [if_neg hfile, if_neg hfile]
      refine if_pos ?_
      by_contra hlong
      exact hfile ⟨by dsimp only at hlong; omega, rfl, by dsimp only at hlong; omega⟩
  rw [hreceived]
  by_cases hfile : SentAsFile compressed true msg
  · obtain ⟨hlong, -, hlt⟩ := id hfile
    rw [hwindow] at hlt
    rw [if_pos hfile]
    refine ⟨⟨?_, ?_⟩, fun _ => rfl, fun _ => rfl⟩
    · intro h
      exact Or.inl ((List.take_eq_self_iff msg).mp (Option.some.inj h))
    · rintro (hshort | hdense)
      · rw [List.take_of_length_le hshort]
      · omega
  · rw [if_neg hfile]
    have hsame : msg.length ≤ 256 ∨ msg.length ≤ (compressed (msg.take 256)).length := by
      by_contra hboth
      rw [not_or, Nat.not_le, Nat.not_le] at hboth
      exact hfile ⟨by omega, rfl, hboth.2⟩
    refine ⟨iff_of_true rfl hsame, fun h => absurd rfl h, ?_⟩
    intro hlong
    rw [hwindow] at hsmall
    omega

/-- Of a text of 300 characters 256 arrive. -/
theorem message_recovered_hse_dense :
    recoveredMessage Mbedtls.transparent (hsd 512)
        (SstApi.reference Mbedtls.transparent) true DashEnv.bare bothKeyed.2
        (steady ((handleLine Mbedtls.transparent (hse fun _ => none) compressing denseText
          bothKeyed.1).2.flatMap PicoOut.lifiBytes)) = some (denseText.take 256) := by
  have hlen : denseText.length = 300 := length_denseText
  have hcmd : ¬ ascii "CMD:" <+: denseText := by
    decide +kernel
  have halloc : compressing.encoderAlloc = true := rfl
  obtain ⟨-, -, hlong⟩ := message_recovered_hse (SstApi.reference Mbedtls.transparent)
    (fun _ => none) Mbedtls.lawful_transparent Mbedtls.total_transparent
    inSession_bothKeyed hcmd (by rw [hlen]; decide) halloc DashEnv.bare (carries_steady _)
  exact hlong (by rw [hlen]; decide)

end LifiAuth
