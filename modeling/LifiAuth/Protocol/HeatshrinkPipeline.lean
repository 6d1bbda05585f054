import LifiAuth.Protocol.HeatshrinkCalls

/-!
# From the encoder to the decoder

An encoder writes to a channel that a decoder reads from, each under its calls in any
order.  What comes out at the far end is a beginning of what went in, and all of it when
both are done.
-/

namespace LifiAuth.Heatshrink

open Support

/-! ## The two and the channel -/

structure Pipeline where
  encoder : Hse
  channel : List UInt8
  decoder : Hsd

inductive PipelineCall where
  | encoder (call : HseCall)
  /-- The first `count` bytes of the channel are offered to the decoder. -/
  | sink (count : ℕ)
  | poll (outBufSize : ℕ)

/-- `sunk` is what the encoder took, `written` what the decoder wrote. -/
def pipeline (inputBufferSize : ℕ) : Machine Pipeline PipelineCall HseEvent where
  step s
    | .encoder call =>
        let (encoder, t) := hseCalls.step s.encoder call
        ({ s with encoder := encoder, channel := s.channel ++ written t },
          [.sunk (sunk t)])
    | .sink count =>
        let (taken, decoder) := s.decoder.sink inputBufferSize (s.channel.take count)
        ({ s with channel := s.channel.drop (taken.getD 0), decoder := decoder }, [])
    | .poll outBufSize =>
        let (_, out, decoder) := s.decoder.poll outBufSize
        ({ s with decoder := decoder }, [.written out])

def Pipeline.reset (searchIndex : ℕ → Option ℕ) : Pipeline :=
  ⟨.reset searchIndex, [], .reset⟩

/-! ## What holds of it -/

/-- What the encoder wrote is what the decoder took and the channel holds. -/
structure Flows (s : Pipeline) (xs taken ys : List UInt8) : Prop where
  encoder : Between s.encoder xs (taken ++ s.channel)
  decoder : HsdRep s.decoder taken ys

namespace Flows

variable {s : Pipeline} {xs taken ys : List UInt8} (inputBufferSize : ℕ)

theorem encoderCall (h : Flows s xs taken ys) (call : HseCall) :
    Flows ((pipeline inputBufferSize).step s (.encoder call)).1
      (xs ++ sunk (hseCalls.step s.encoder call).2) taken ys := by
  refine ⟨?_, h.decoder⟩
  have hnext : Between (hseCalls.step s.encoder call).1
      (xs ++ sunk (hseCalls.step s.encoder call).2)
      (taken ++ s.channel ++ written (hseCalls.step s.encoder call).2) :=
    h.encoder.step call
  rwa [List.append_assoc] at hnext

/-- What the decoder takes is the beginning of what is offered. -/
theorem sink (h : Flows s xs taken ys) (count : ℕ) :
    ∃ more, Flows ((pipeline inputBufferSize).step s (.sink count)).1 xs
      (taken ++ more) ys := by
  let offered := s.channel.take count
  let size := min (inputBufferSize - s.decoder.input.inputBuffer.length) offered.length
  have hsize : size ≤ offered.length := Nat.min_le_right _ _
  have hchannel : offered.take size ++ s.channel.drop size = s.channel := by
    have hcount : size ≤ count := hsize.trans (List.length_take_le _ _)
    rw [List.take_take, Nat.min_eq_left hcount, List.take_append_drop]
  refine ⟨offered.take size, ?_, h.decoder.sink _⟩
  have hkept : Between s.encoder xs
      (taken ++ offered.take size ++ s.channel.drop size) := by
    rw [List.append_assoc, hchannel]
    exact h.encoder
  exact hkept

theorem poll (h : Flows s xs taken ys) (n : ℕ) :
    Flows ((pipeline inputBufferSize).step s (.poll n)).1 xs taken
      (ys ++ (s.decoder.poll n).2.1) :=
  ⟨h.encoder, h.decoder.poll n⟩

/-- What the decoder can make of what it took begins what the encoder took. -/
theorem prefix_decode (h : Flows s xs taken ys) : decode taken <+: xs := by
  obtain ⟨rest, hrest⟩ :=
    (List.prefix_append taken s.channel).trans h.encoder.encoded.prefix_taken
  have hmono := decode_mono taken rest
  rwa [hrest, decode_compressed] at hmono

theorem prefix_out (h : Flows s xs taken ys) : ys <+: xs := by
  refine List.IsPrefix.trans ?_ h.prefix_decode
  rw [h.decoder.decoding.eq_rest]
  exact Hsd.prefix_rest s.decoder ys _

theorem out_eq (h : Flows s xs taken ys) (hencoder : s.encoder.state = .done)
    (hchannel : s.channel = []) (hdecoder : s.decoder.finish.1 = false) : ys = xs := by
  have hall := h.encoder.encoded.eq_compressed hencoder
  rw [hchannel, List.append_nil] at hall
  have hstarved := Hsd.starved_of_finish h.decoder hdecoder
  rw [h.decoder.decoding.eq_of_starved hstarved, hall, decode_compressed]

end Flows

theorem flows_run (inputBufferSize : ℕ) (searchIndex : ℕ → Option ℕ)
    (calls : List PipelineCall) :
    let s := (pipeline inputBufferSize).run (.reset searchIndex) calls
    let t := (pipeline inputBufferSize).trace (.reset searchIndex) calls
    ∃ taken, Flows s (sunk t) taken (written t) := by
  refine Machine.past_run (P := fun t s => ∃ taken, Flows s (sunk t) taken (written t)) ?_
    ⟨[], Between.reset searchIndex, HsdRep.reset⟩ calls
  rintro t s call ⟨taken, h⟩
  rw [sunk_append, written_append]
  cases call with
  | encoder call =>
      refine ⟨taken, ?_⟩
      simpa [pipeline, sunk, written] using h.encoderCall inputBufferSize call
  | sink count =>
      obtain ⟨more, h⟩ := h.sink inputBufferSize count
      refine ⟨taken ++ more, ?_⟩
      simpa [pipeline, sunk, written] using h
  | poll outBufSize =>
      refine ⟨taken, ?_⟩
      simpa [pipeline, sunk, written] using h.poll inputBufferSize outBufSize

/-- In any interleaving of the calls at the two ends, the decoder has written a beginning
of what the encoder took, and all of it when the encoder is done, the channel is empty
and the decoder has nothing more. -/
theorem pipeline_transparent (inputBufferSize : ℕ) (searchIndex : ℕ → Option ℕ)
    (calls : List PipelineCall) :
    let s := (pipeline inputBufferSize).run (.reset searchIndex) calls
    let t := (pipeline inputBufferSize).trace (.reset searchIndex) calls
    written t <+: sunk t ∧
      (s.encoder.state = .done → s.channel = [] → s.decoder.finish.1 = false →
        written t = sunk t) := by
  obtain ⟨taken, h⟩ := flows_run inputBufferSize searchIndex calls
  exact ⟨h.prefix_out, h.out_eq⟩

end LifiAuth.Heatshrink
