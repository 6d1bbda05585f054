import LifiAuth.Support.Access
import LifiAuth.Support.RingQueue
import LifiAuth.Wifi.ReportText

/-!
# The status queue

`reporter_post_status_message` puts diagnostic lines into a ring of 32 strings, and
`status_reporter_thread` takes them out again, escapes them and posts them.  Both copies
and the escaping loop may cut a line short, but never between a backslash and the character
it stands in front of.
-/

namespace LifiAuth

open Support Json

/-! ## The arrays -/

/-- The arrays of the two functions; `queue i` is `g_status_queue[i]`. -/
inductive StatusArray where
  | queue (i : ℕ)
  | message
  | escaped
  | json

/-- `STATUS_QUEUE_SIZE`. -/
def statusQueueSize : ℕ := 32

/-- As they are declared; there are no others than `statusQueueSize` strings in the queue. -/
def StatusArray.size : StatusArray → ℕ
  | queue i => if i < statusQueueSize then 320 else 0
  | message => 320
  | escaped => 256
  | json => 320

/-- A line of printable characters. -/
structure StatusText where
  chars : List UInt8
  printable : ∀ c ∈ chars, 0x20 ≤ c ∧ c ≤ 0x7e

theorem StatusText.zero_not_mem (message : StatusText) : 0 ∉ message.chars := by
  intro hmem
  exact absurd (message.printable 0 hmem).1 (by decide)

/-- `strncpy(dst, src, n)`. -/
def strncpy (n : ℕ) (s : List UInt8) : Bytes n :=
  ⟨s.takeD n 0, List.takeD_length n s 0⟩

/-! ## The functions -/

/-- The ring, and the message of the pass of `status_reporter_thread` that is under way. -/
structure StatusReporter where
  queue : RingQueue (Bytes 320) statusQueueSize
  posting : Option (Bytes 320)

def StatusReporter.initial : StatusReporter where
  queue :=
    { slots := List.Vector.replicate statusQueueSize (Bytes.zero 320)
      head := ⟨0, by decide⟩
      tail := ⟨0, by decide⟩
      count := 0
      count_le := Nat.zero_le _
      tail_eq := rfl }
  posting := none

/-- What is written into a slot of the queue. -/
def statusSlot (message : StatusText) : Bytes 320 :=
  (strncpy 319 message.chars).append (Bytes.zero 1)

/-- The text of `status_reporter_thread` for the message it holds. -/
def statusJson (message : Bytes 320) : List UInt8 :=
  ascii "\x7b\"event\":\"status_message\",\"message\":\"" ++
    escapeStatus (cstr message.toList) 0 ++ ascii "\"\x7d"

theorem cstr_takeD {s : List UInt8} (h : 0 ∉ s) (n : ℕ) : cstr (s.takeD n 0) = s.take n := by
  induction n generalizing s with
  | zero => rfl
  | succ n ih =>
      rcases s with _ | ⟨c, s⟩
      · rfl
      · rw [List.mem_cons, not_or] at h
        obtain ⟨hc, hs⟩ := h
        have hcons : (c :: s).takeD (n + 1) 0 = c :: s.takeD n 0 := rfl
        rw [hcons, cstr, List.takeWhile_cons_of_pos (by simpa using Ne.symm hc),
          List.take_succ_cons]
        exact congrArg (c :: ·) (ih hs)

/-- A line is cut short to 319 characters. -/
theorem cstr_statusSlot (message : StatusText) :
    cstr (statusSlot message).toList = message.chars.take 319 := by
  have hend : cstr (Bytes.zero 1).toList = [] := rfl
  have hslot : (statusSlot message).toList = message.chars.takeD 319 0 ++ (Bytes.zero 1).toList :=
    rfl
  have hcopy := cstr_takeD message.zero_not_mem 319
  rw [cstr] at hend hcopy
  rw [hslot, cstr, List.takeWhile_append, hcopy, hend, List.append_nil]
  split
  · next hlen =>
      rw [← hcopy]
      exact (List.takeWhile_prefix _).eq_of_length (hcopy ▸ hlen) |>.symm
  · rfl

/-- The second copy leaves the line as it is. -/
theorem cstr_strncpy_cstr (slot : Bytes 320) :
    cstr (strncpy 320 (cstr slot.toList)).toList = cstr slot.toList := by
  have hlen : (cstr slot.toList).length ≤ 320 :=
    (List.takeWhile_prefix _).length_le.trans_eq slot.toList_length
  change cstr ((cstr slot.toList).takeD 320 0) = _
  rw [cstr_takeD (not_mem_cstr _), List.take_of_length_le hlen]

/-! ## Escaping -/

/-- A pass holds what was written into the slot. -/
def takenMessage (message : StatusText) : Bytes 320 :=
  strncpy 320 (cstr (statusSlot message).toList)

theorem cstr_takenMessage (message : StatusText) :
    cstr (takenMessage message).toList = message.chars.take 319 :=
  (cstr_strncpy_cstr _).trans (cstr_statusSlot message)

/-- The text of a pass is that of the line as it was posted. -/
theorem statusJson_takenMessage (message : StatusText) :
    statusJson (takenMessage message) = statusMessageJson message.chars := by
  have hchars : cstr message.chars = message.chars := cstr_of_not_mem message.zero_not_mem
  rw [statusJson, cstr_takenMessage, statusMessageJson, hchars]

section

variable {t : List StatusOut} {r : StatusReporter}

end

end LifiAuth
