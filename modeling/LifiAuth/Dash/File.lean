import LifiAuth.Dash.Handlers
import LifiAuth.Support.Streamer

/-!
# Files

A `FILE` frame carries a heatshrink encoding.  The receiver feeds the decrypted
bytes to a decoder, drains it into one large buffer and writes that to a file; the
decoder is a parameter.
-/

namespace LifiAuth

open Support

/-- `heatshrink_decoder` as `heatshrink_decoder_alloc(512, 8, 4)` returns it. -/
abbrev HeatshrinkDecoder := Streamer UInt8 UInt8

/-- `sizeof(decompressed)`. -/
def decompressedSize : ℕ := 32768

variable (hsd : HeatshrinkDecoder)

/-- The file branch after `heatshrink_decoder_alloc`: the loop that sinks and
drains, `finish`, and the last drain.  `none` if the first loop does not end. -/
def decompress (decrypted : List UInt8) : Option (List UInt8) :=
  match hsd.sinkLoop decompressedSize decrypted.length hsd.alloc decrypted [] with
  | none => none
  | some (decompressed, s) =>
      some (hsd.pollLoop decompressedSize (decompressedSize + 1)
        (hsd.finish s).2 decompressed).1

/-- What is made of a decrypted payload: the text of the chat branch, or what the
file branch writes to the file. -/
def recoveredPayload (decoderAlloc : Bool) (t : DataType)
    (decrypted : List UInt8) : Option (List UInt8) :=
  match t with
  | .encrypted => some decrypted
  | .file => if decoderAlloc then decompress hsd decrypted else none

def recovered (decoderAlloc : Bool) : DashOut → Option (List UInt8)
  | .accepted _ t _ _ _ decrypted => recoveredPayload hsd decoderAlloc t decrypted
  | _ => none

variable {hsd} {dec : List UInt8 → List UInt8}
  {Rep : hsd.State → Bool → List UInt8 → List UInt8 → Prop}

/-- The buffer holds the whole output, if it is large enough. -/
theorem decompress_eq (hdec : hsd.Computes (fun _ => dec) Rep)
    (hprogress : hsd.Progresses (fun _ => dec) Rep)
    {decrypted : List UInt8} (hsize : (dec decrypted).length < decompressedSize) :
    decompress hsd decrypted = some (dec decrypted) := by
  obtain ⟨s, hloop, hrep⟩ :=
    hdec.sinkLoop hprogress hdec.start le_rfl hsize
  have hnil : dec [] = [] := hdec.nil
  rw [List.nil_append, hnil] at hloop
  rw [List.nil_append] at hrep
  obtain ⟨hout, -⟩ :=
    hdec.pollLoop_of_lt (hdec.finish hrep) hsize decompressedSize
  rw [decompress, hloop]
  exact congrArg some hout

end LifiAuth
