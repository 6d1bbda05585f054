import LifiAuth.Pico.Console
import Mathlib.Algebra.Ring.Parity
import Mathlib.Data.List.DropRight

/-!
# How the input loop assembles a line

A line end is looked behind: what follows it within 2 ms goes into the line with it,
and is not looked behind itself.  So of consecutive line ends every second one is
looked behind, and a line that the host ends with a newline is complete only if that
newline is one of them.
-/

namespace LifiAuth

open Support

/-! ## The loop and its host -/

/-- The input loop: the console with which it is left, if it is. -/
def readLine : Console → List UsbEvent → Option Console
  | _, [] => none
  | c, ev :: evs =>
      match edit c ev with
      | .editing c => readLine c evs
      | .complete c => some c

/-- Bytes of the host, back to back. -/
def hostSends (text : List UInt8) : List UsbEvent :=
  text.map fun b => .byte ⟨b, false⟩

/-- What `handle_bulk_text` writes for text that it has encoded. -/
def handleBulkText (data : List UInt8) : List UInt8 :=
  if data.getLast? = some 10 then data else data ++ [10]

/-- The loop at its start: `msg_len` is 0, and the buffer may hold an old message. -/
def Console.fresh (behind : List Marked) : Console :=
  ⟨[], behind, none⟩

/-- The bytes up to `msg_len`. -/
def Console.text (c : Console) : List UInt8 :=
  c.typed.map Marked.byte

theorem readLine_of_editsTo {c c' : Console} {evs : List UsbEvent}
    (h : EditsTo c evs c') (evs' : List UsbEvent) :
    readLine c (evs ++ evs') = readLine c' evs' := by
  induction h with
  | nil c => rfl
  | cons hedit hrest ih =>
      rw [List.cons_append, readLine, hedit]
      exact ih

/-- Silence completes nothing where no line end is looked behind. -/
theorem readLine_silence {c : Console} (hpeek : c.peeking = none) (n : ℕ) :
    readLine c (List.replicate n .silence) = none := by
  induction n with
  | zero => rfl
  | succ n ih =>
      have hedit : edit c .silence = .editing c := by
        rw [edit, hpeek]
      rw [List.replicate_succ, readLine, hedit]
      exact ih

/-- A complete line is what the sender goes on with. -/
theorem line_mem_trace_of_readLine (m : Mbedtls) (hse : HeatshrinkEncoder)
    {p : Pico} {c c' : Console} {es : List (PicoEnv × UsbEvent)}
    (h : readLine c (es.map Prod.snd) = some c') :
    .line c'.typed ∈ (usbConsole m hse).trace (p, c) es := by
  induction es generalizing c with
  | nil => cases h
  | cons e es ih =>
      rw [List.map_cons, readLine] at h
      rw [Machine.trace_cons]
      cases hedit : edit c e.2 with
      | complete c₁ =>
          rw [hedit] at h
          obtain rfl := Option.some.inj h
          exact List.mem_append_left _ (exists_line_of_complete hedit)
      | editing c₁ =>
          rw [hedit] at h
          have hstep : (usbConsole m hse).step (p, c) e = ((p, c₁), []) :=
            consoleStep_of_editing hedit
          rw [hstep]
          exact ih h

/-! ## Line feeds at the end -/

/-- The number of newlines that `text` ends with. -/
def lineFeedsAtEnd (text : List UInt8) : ℕ :=
  (text.rtakeWhile (· == 10)).length

theorem lineFeedsAtEnd_lineFeed (text : List UInt8) :
    lineFeedsAtEnd (text ++ [10]) = lineFeedsAtEnd text + 1 := by
  rw [lineFeedsAtEnd, List.rtakeWhile_concat_pos _ _ _ rfl, List.length_append]
  rfl

theorem lineFeedsAtEnd_other {b : UInt8} (hb : b ≠ 10) (text : List UInt8) :
    lineFeedsAtEnd (text ++ [b]) = 0 := by
  rw [lineFeedsAtEnd, List.rtakeWhile_concat_neg _ _ _ (by simpa using hb)]
  rfl

theorem lineFeedsAtEnd_replicate (n : ℕ) : lineFeedsAtEnd (List.replicate n 10) = n := by
  have hall : (List.replicate n 10).rtakeWhile (· == (10 : UInt8)) =
      List.replicate n 10 :=
    List.rtakeWhile_eq_self_iff.mpr fun b hb =>
      beq_iff_eq.mpr (List.eq_of_mem_replicate hb)
  rw [lineFeedsAtEnd, hall, List.length_replicate]

/-! ## What the loop has of the text -/

theorem isLineEnd_of_isPrintable {b : UInt8} (h : isPrintable b = true) :
    isLineEnd b = false ∧ isRubOut b = false ∧ b ≠ 10 := by
  have hne {x : UInt8} (hx : isPrintable x = false) : b ≠ x := by
    rintro rfl
    rw [h] at hx
    cases hx
  have hten : b ≠ 10 := hne rfl
  have hthirteen : b ≠ 13 := hne rfl
  have hdel : b ≠ 127 := hne rfl
  have height : b ≠ 8 := hne rfl
  simp [isLineEnd, isRubOut, hten, hthirteen, hdel, height]

namespace Console

/-- The loop has `text`, and looks behind its last byte exactly if that ends an odd
number of newlines. -/
structure Assembles (c : Console) (text : List UInt8) : Prop where
  held : c.text ++ c.peeking.toList.map Marked.byte = text
  lineFeed : ∀ e ∈ c.peeking, e.byte = 10
  peeking : c.peeking.isSome ↔ Odd (lineFeedsAtEnd text)

variable {c : Console} {text : List UInt8} {b : UInt8}

theorem Assembles.fresh (behind : List Marked) :
    (Console.fresh behind).Assembles [] where
  held := rfl
  lineFeed := fun e he => by cases he
  peeking := by simp [Console.fresh, lineFeedsAtEnd]

theorem text_put (x : Marked) (hroom : c.typed.length < msgBufSize - 1) :
    (c.put x).text = c.text ++ [x.byte] := by
  rw [put, if_pos hroom]
  exact List.map_append

/-- A line end that is looked behind and what follows it are both taken over. -/
theorem text_burst (lineEnd : Marked) (hroom : c.typed.length + 1 < msgBufSize - 1)
    (hb : isPrintable b = true ∨ b = 10) :
    (c.burst lineEnd ⟨b, false⟩).text = c.text ++ [10, b] := by
  have hfeed : (({ c with peeking := none } : Console).putLineFeed lineEnd).text =
      c.text ++ [10] := text_put _ (Nat.lt_of_succ_lt hroom)
  have hlen : (({ c with peeking := none } : Console).putLineFeed
      lineEnd).typed.length < msgBufSize - 1 :=
    Nat.lt_of_le_of_lt (length_typed_put _ _) hroom
  rcases hb with hprint | rfl
  · rw [burst, if_pos hprint, text_put _ hlen, hfeed, List.append_assoc]
    rfl
  · rw [burst, if_neg (by decide), if_pos (by decide), putLineFeed, text_put _ hlen, hfeed,
      List.append_assoc]
    rfl

/-- Every byte of the text is taken over while there is room for it, and nothing else
happens unless it is read by itself and the text is long enough to be sent. -/
theorem Assembles.edit (h : c.Assembles text) (hb : isPrintable b = true ∨ b = 10)
    (hlen : text.length < msgBufSize - 1)
    (hroom : isPrintable b = true → text.length + 1 < msgBufSize - 128) :
    ∃ c', LifiAuth.edit c (.byte ⟨b, false⟩) = .editing c' ∧
      c'.Assembles (text ++ [b]) := by
  obtain ⟨hheld, hfeed, hpeeking⟩ := h
  have htyped : c.typed.length + c.peeking.toList.length = text.length := by
    rw [← hheld, List.length_append, Console.text, List.length_map, List.length_map]
  cases hpeek : c.peeking with
  | some lineEnd =>
      rw [hpeek] at hheld hfeed hpeeking htyped
      have hodd : Odd (lineFeedsAtEnd text) := hpeeking.mp rfl
      have hten : lineEnd.byte = 10 := hfeed lineEnd rfl
      refine ⟨c.burst lineEnd ⟨b, false⟩, by rw [LifiAuth.edit, hpeek], ?_, ?_, ?_⟩
      · rw [text_burst lineEnd _ hb, peeking_burst, ← hheld]
        · simp [hten]
        · simp at htyped
          omega
      · rw [peeking_burst]
        exact fun e he => by cases he
      · rw [peeking_burst]
        rcases hb with hprint | rfl
        · rw [lineFeedsAtEnd_other (isLineEnd_of_isPrintable hprint).2.2]
          simp
        · rw [lineFeedsAtEnd_lineFeed]
          simpa using hodd.add_one
  | none =>
      rw [hpeek] at hheld htyped hpeeking
      have heven : ¬ Odd (lineFeedsAtEnd text) := fun hodd => by
        simpa using hpeeking.mpr hodd
      rcases hb with hprint | rfl
      · obtain ⟨hend, hrub, hten⟩ := isLineEnd_of_isPrintable hprint
        have hshort := hroom hprint
        have hfits : c.typed.length < msgBufSize - 1 := by
          simp at htyped
          omega
        refine ⟨c.put ⟨b, false⟩, ?_, ?_, ?_, ?_⟩
        · simp only [LifiAuth.edit, hpeek, hend, hrub, hprint, if_true,
            Bool.false_eq_true, if_false, Bool.false_and]
          refine if_neg ?_
          have hlonger := length_typed_put ⟨b, false⟩ c
          simp at htyped
          omega
        · rw [text_put _ hfits, peeking_put, hpeek, ← hheld]
          simp
        · rw [peeking_put, hpeek]
          exact fun e he => by cases he
        · rw [peeking_put, hpeek, lineFeedsAtEnd_other hten]
          simp
      · refine ⟨{ c with peeking := some ⟨10, false⟩ }, ?_, ?_, ?_, ?_⟩
        · rw [LifiAuth.edit, hpeek]
          rfl
        · rw [← hheld]
          simp [Console.text]
        · rintro e he
          rw [← Option.mem_some_iff.mp he]
        · rw [lineFeedsAtEnd_lineFeed]
          simpa using (Nat.not_odd_iff_even.mp heven).add_one

/-- Text that fits the buffer is taken over; if it is not newlines alone, it must be
too short to be sent by itself. -/
theorem Assembles.hostSends (h : c.Assembles text) (more : List UInt8)
    (hmore : ∀ b ∈ more, isPrintable b = true ∨ b = 10)
    (hlen : (text ++ more).length < msgBufSize)
    (hroom : ∀ b ∈ more, isPrintable b = true →
      (text ++ more).length < msgBufSize - 128) :
    ∃ c', EditsTo c (LifiAuth.hostSends more) c' ∧ c'.Assembles (text ++ more) := by
  induction more generalizing c text with
  | nil =>
      rw [List.append_nil]
      exact ⟨c, .nil c, h⟩
  | cons b more ih =>
      obtain ⟨hb, hmore⟩ := List.forall_mem_cons.mp hmore
      have hcons : text ++ b :: more = text ++ [b] ++ more := by simp
      rw [hcons] at hlen hroom ⊢
      obtain ⟨hroom₁, hroom⟩ := List.forall_mem_cons.mp hroom
      have hsum : (text ++ [b] ++ more).length = text.length + 1 + more.length := by
        rw [List.length_append, List.length_append, List.length_singleton]
      obtain ⟨c₁, hedit, h₁⟩ := h.edit hb (by omega) fun hprint => by
        have := hroom₁ hprint
        omega
      obtain ⟨c', hedits, h'⟩ := ih h₁ hmore hlen hroom
      exact ⟨c', .cons hedit hedits, h'⟩

end Console

/-! ## What the loop is left with -/

/-- The loop is left with `text` in its buffer, as bytes and as a string. -/
def LeavesWith (c : Console) (evs : List UsbEvent) (text : List UInt8) : Prop :=
  ∃ c', readLine c evs = some c' ∧ c'.text = text ∧
    cstr (c'.terminate.messageBuffer.map Marked.byte) = text

/-- The terminator cuts off what the buffer holds behind the line. -/
theorem cstr_terminate {c : Console} (hzero : ∀ b ∈ c.text, b ≠ 0) :
    cstr (c.terminate.messageBuffer.map Marked.byte) = c.text := by
  have hbuf : c.terminate.messageBuffer.map Marked.byte =
      c.text ++ 0 :: c.behind.tail.map Marked.byte := List.map_append
  rw [hbuf, cstr, List.takeWhile_append_of_pos (by simpa using hzero),
    List.takeWhile_cons_of_neg (by simp), List.append_nil]

/-- A string of printable characters and newlines comes out as it went in exactly if it
ends with an even number of newlines. -/
theorem readLine_keeps_iff (text : List UInt8)
    (htext : ∀ b ∈ text, isPrintable b = true ∨ b = 10)
    (hlen : text.length < msgBufSize - 128) (behind : List Marked) (n : ℕ) :
    LeavesWith (.fresh behind)
        (hostSends (text ++ [10]) ++ List.replicate (n + 1) .silence) text ↔
      Even (lineFeedsAtEnd text) := by
  have hfits : text.length < msgBufSize - 1 := hlen.trans (by decide)
  obtain ⟨c, hedits, hc⟩ := (Console.Assembles.fresh behind).hostSends text htext
    (Nat.lt_of_lt_of_le hfits (Nat.sub_le _ _)) fun _ _ _ => hlen
  rw [List.nil_append] at hc
  obtain ⟨c', hedit, hc'⟩ := hc.edit (Or.inr rfl) hfits
    fun hprint => absurd hprint (by decide)
  have hsent (evs : List UsbEvent) : readLine (.fresh behind)
      (hostSends (text ++ [10]) ++ evs) = readLine c' evs := by
    rw [hostSends, List.map_append, List.append_assoc]
    refine (readLine_of_editsTo hedits _).trans ?_
    rw [List.map_singleton, List.singleton_append, readLine, hedit]
  have hpeeking := hc'.peeking
  rw [lineFeedsAtEnd_lineFeed, Nat.odd_add_one, Nat.not_odd_iff_even] at hpeeking
  rw [LeavesWith, hsent, ← hpeeking]
  cases hpeek : c'.peeking with
  | none =>
      -- the newline that the host added was itself looked at behind another one
      rw [readLine_silence hpeek]
      simp
  | some lineEnd =>
      have hdone : readLine c' (List.replicate (n + 1) .silence) =
          some { c' with peeking := none } := by
        rw [List.replicate_succ, readLine, edit, hpeek]
      have hline : c'.text = text := by
        have hheld := hc'.held
        rw [hpeek] at hheld
        exact (List.append_inj' hheld rfl).1
      have hzero : ∀ b ∈ text, b ≠ 0 := by
        rintro b hb rfl
        rcases htext 0 hb with hprint | hten
        · exact absurd hprint (by decide)
        · exact absurd hten (by decide)
      refine iff_of_true ⟨_, hdone, hline, ?_⟩ rfl
      exact (cstr_terminate (by rwa [← hline] at hzero)).trans hline

/-- Over the remains of an earlier message, a text with a blank line inside and two newlines
at its end is kept; with three of them it is not. -/
theorem readLine_keeps_iff_twoLines :
    LeavesWith (.fresh [⟨120, false⟩, ⟨0, true⟩])
        (hostSends (ascii "on\n\noff\n\n" ++ [10]) ++ List.replicate (3 + 1) .silence)
        (ascii "on\n\noff\n\n") ∧
      ¬ LeavesWith (.fresh [⟨120, false⟩, ⟨0, true⟩])
        (hostSends (ascii "on\n\noff\n\n\n" ++ [10]) ++ List.replicate (3 + 1) .silence)
        (ascii "on\n\noff\n\n\n") := by
  constructor
  · exact (readLine_keeps_iff (ascii "on\n\noff\n\n") (by decide) (by decide) _ 3).mpr
      (by decide)
  · exact (readLine_keeps_iff (ascii "on\n\noff\n\n\n") (by decide) (by decide) _ 3).not.mpr
      (by decide)

/-- A line that ends with a newline of its own is not completed, however long the host
is silent. -/
theorem readLine_waits_behind_newline :
    (∀ b ∈ ascii "a\n", isPrintable b = true ∨ b = 10) ∧
      (1 ≤ (ascii "a\n").length ∧ (ascii "a\n").length < msgBufSize - 128) ∧
      ¬ ascii "CMD:" <+: ascii "a\n" ∧
      ∀ n, readLine (.fresh [])
        (hostSends (ascii "a\n" ++ [10]) ++ List.replicate n .silence) = none := by
  refine ⟨by decide, by decide, by decide, fun n => ?_⟩
  have hedits : EditsTo (.fresh []) (hostSends (ascii "a\n" ++ [10]))
      ⟨[⟨97, false⟩, ⟨10, false⟩, ⟨10, false⟩], [], none⟩ :=
    .cons rfl (.cons rfl (.cons rfl (.nil _)))
  rw [readLine_of_editsTo hedits]
  exact readLine_silence rfl n

/-! ## Text of the dashboard -/

/-- The message that the dashboard means: the newline at the end is not part of it. -/
def bulkMessage (data : List UInt8) : List UInt8 :=
  if data.getLast? = some 10 then data.dropLast else data

theorem handleBulkText_eq (data : List UInt8) :
    handleBulkText data = bulkMessage data ++ [10] := by
  rw [handleBulkText, bulkMessage]
  split
  · next hlast => exact (List.dropLast_append_getLast? 10 hlast).symm
  · rfl

/-- A file arrives if it ends with no newline or with an odd number of them. -/
theorem bulkText_arrives_iff {data : List UInt8}
    (hdata : ∀ b ∈ data, isPrintable b = true ∨ b = 10)
    (hlen : data.length < msgBufSize - 128) (behind : List Marked) (n : ℕ) :
    LeavesWith (.fresh behind)
        (hostSends (handleBulkText data) ++ List.replicate (n + 1) .silence)
        (bulkMessage data) ↔
      lineFeedsAtEnd data = 0 ∨ Odd (lineFeedsAtEnd data) := by
  have hsub : (bulkMessage data).Sublist data := by
    rw [bulkMessage]
    split
    · exact List.dropLast_sublist data
    · exact List.Sublist.refl data
  rw [handleBulkText_eq, readLine_keeps_iff _ (fun b hb => hdata b (hsub.subset hb))
    (Nat.lt_of_le_of_lt hsub.length_le hlen), bulkMessage]
  split
  · next hlast =>
      have hconcat := List.dropLast_append_getLast? 10 hlast
      have hfeeds := lineFeedsAtEnd_lineFeed data.dropLast
      rw [hconcat] at hfeeds
      rw [hfeeds, Nat.odd_add_one, Nat.not_odd_iff_even]
      simp
  · next hlast =>
      have hzero : lineFeedsAtEnd data = 0 := by
        rw [lineFeedsAtEnd, List.length_eq_zero_iff, List.rtakeWhile_eq_nil_iff]
        intro hne hten
        rw [beq_iff_eq] at hten
        exact hlast (by rw [List.getLast?_eq_some_getLast hne, hten])
      simp [hzero]

end LifiAuth
