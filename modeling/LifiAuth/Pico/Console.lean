import LifiAuth.Pico.Handlers

/-!
# The USB console of the sender firmware

The input loop of `main` edits the bytes of the USB port into `message_buffer` until
a line is complete, and hands the line over.  Every byte carries a mark that says
whether it comes from a key; the firmware never looks at it.
-/

namespace LifiAuth

open Support

variable (m : Mbedtls) (hse : HeatshrinkEncoder)

structure Marked where
  byte : UInt8
  fromKey : Bool
  deriving DecidableEq

/-- What `getchar_timeout_us` finds: a byte, or nothing for 2 ms. -/
inductive UsbEvent where
  | byte (b : Marked)
  | silence

/-- `message_buffer` up to `msg_len` and from there on, and the line end behind which
the loop is looking for more.  The zeros at the end of the buffer are left out. -/
structure Console where
  typed : List Marked
  behind : List Marked
  peeking : Option Marked

def Console.messageBuffer (c : Console) : List Marked :=
  c.typed ++ c.behind

/-- All that the loop still has. -/
def Console.held (c : Console) : List Marked :=
  c.messageBuffer ++ c.peeking.toList

/-! ## Editing -/

def isPrintable (b : UInt8) : Bool :=
  32 ≤ b && b < 127

def isLineEnd (b : UInt8) : Bool :=
  b == 13 || b == 10

def isRubOut (b : UInt8) : Bool :=
  b == 127 || b == 8

/-- The byte goes into the buffer, as it is or as a line feed. -/
def isTypable (b : UInt8) : Bool :=
  isPrintable b || isLineEnd b

namespace Console

/-- `message_buffer[msg_len++] = b`, if there is room. -/
def put (b : Marked) (c : Console) : Console :=
  if c.typed.length < msgBufSize - 1 then
    { c with typed := c.typed ++ [b], behind := c.behind.tail }
  else c

/-- The line feed that stands for a line end. -/
def putLineFeed (b : Marked) (c : Console) : Console :=
  c.put { b with byte := 10 }

/-- `msg_len--`: the character stays in the buffer. -/
def rubOut (c : Console) : Console :=
  { c with
    typed := c.typed.dropLast
    behind := c.typed.getLast?.toList ++ c.behind }

/-- `message_buffer[msg_len] = '\0'`. -/
def terminate (c : Console) : Console :=
  { c with behind := ⟨0, false⟩ :: c.behind.tail }

/-- `memset(message_buffer, 0, sizeof(message_buffer))` and `msg_len = 0`. -/
def cleared : Console := ⟨[], [], none⟩

/-- A line end and the byte that followed it within 2 ms. -/
def burst (lineEnd next : Marked) (c : Console) : Console :=
  let c := ({ c with peeking := none } : Console).putLineFeed lineEnd
  if isPrintable next.byte then c.put next
  else if isLineEnd next.byte then c.putLineFeed next
  else c

end Console

/-- What an event leads to: more editing, or a complete line. -/
inductive Edited where
  | editing (c : Console)
  | complete (c : Console)

/-- One pass of the input loop. -/
def edit (c : Console) : UsbEvent → Edited
  | .silence =>
      match c.peeking with
      | none => .editing c
      | some _ => .complete { c with peeking := none }
  | .byte b =>
      match c.peeking with
      | some lineEnd => .editing (c.burst lineEnd b)
      | none =>
          if isLineEnd b.byte then .editing { c with peeking := some b }
          else if isRubOut b.byte && !c.typed.isEmpty then .editing c.rubOut
          else
            let c := if isPrintable b.byte then c.put b else c
            -- `[Auto-Send: Buffer Full]`
            if c.typed.length ≥ msgBufSize - 128 then .complete c else .editing c

/-- What a byte does where it completes no line. -/
inductive EditedBy (c : Console) (b : Marked) (c' : Console) : Prop where
  | burst (lineEnd : Marked) (peeking : c.peeking = some lineEnd)
      (eq : c' = c.burst lineEnd b)
  | lineEnd (peeking : c.peeking = none) (byte : isLineEnd b.byte = true)
      (eq : c' = { c with peeking := some b })
  | rubOut (peeking : c.peeking = none) (byte : isRubOut b.byte = true)
      (eq : c' = c.rubOut)
  | printed (peeking : c.peeking = none) (byte : isPrintable b.byte = true)
      (short : c'.typed.length < msgBufSize - 128) (eq : c' = c.put b)
  | ignored (peeking : c.peeking = none) (byte : isTypable b.byte = false)
      (short : c'.typed.length < msgBufSize - 128) (eq : c' = c)

theorem editedBy_of_editing {c c' : Console} {b : Marked}
    (h : edit c (.byte b) = .editing c') : EditedBy c b c' := by
  rw [edit] at h
  split at h
  · next lineEnd hpeek => exact .burst lineEnd hpeek (Edited.editing.inj h).symm
  · next hpeek =>
      split at h
      · next hend => exact .lineEnd hpeek hend (Edited.editing.inj h).symm
      · next hend =>
          split at h
          · next hrub =>
              rw [Bool.and_eq_true] at hrub
              exact .rubOut hpeek hrub.1 (Edited.editing.inj h).symm
          · cases hprint : isPrintable b.byte with
            | true =>
                simp only [hprint, if_true] at h
                split at h
                · cases h
                · next hshort =>
                    obtain rfl := Edited.editing.inj h
                    exact .printed hpeek hprint (Nat.lt_of_not_le hshort) rfl
            | false =>
                simp only [hprint, Bool.false_eq_true, if_false] at h
                split at h
                · cases h
                · next hshort =>
                    obtain rfl := Edited.editing.inj h
                    refine .ignored hpeek ?_ (Nat.lt_of_not_le hshort) rfl
                    rw [isTypable, hprint, Bool.eq_false_iff.mpr hend, Bool.or_self]

theorem editing_of_silence {c c' : Console} (h : edit c .silence = .editing c') :
    c.peeking = none ∧ c' = c := by
  rw [edit] at h
  split at h
  · next hpeek => exact ⟨hpeek, (Edited.editing.inj h).symm⟩
  · cases h

/-! ## Lines -/

inductive ConsoleOut where
  | pico (o : PicoOut)
  /-- A line is complete. -/
  | line (text : List Marked)
  /-- A line was transmitted as a message. -/
  | sent (text : List Marked)
  deriving DecidableEq

/-- An encrypted message was transmitted. -/
def PicoOut.isDataSent : PicoOut → Bool
  | dataSent _ _ _ _ _ _ => true
  | _ => false

/-- What a message that is not sent leaves in the buffer; compression has
overwritten its beginning. -/
def Console.unsent (env : PicoEnv) (c : Console) : Console :=
  let cells := c.typed ++ c.behind
  match autoCompress hse env.encoderAlloc (c.typed.map Marked.byte) with
  | (.encrypted, _) => ⟨[], cells, none⟩
  | (.file, payload) =>
      ⟨[], payload.map (fun b => ⟨b, c.typed.any Marked.fromKey⟩) ++
        cells.drop payload.length, none⟩

/-- A complete line is handled, and the buffer cleared after a command and after a
message that was sent. -/
def completeLine (env : PicoEnv) (p : Pico) (c : Console) :
    (Pico × Console) × List ConsoleOut :=
  let text := c.typed.map Marked.byte
  let r := handleLine m hse env text p
  let out := .line c.typed :: r.2.map .pico
  if ascii "CMD:" <+: text then ((r.1, .cleared), out)
  else if r.2.any PicoOut.isDataSent then ((r.1, .cleared), .sent c.typed :: out)
  else ((r.1, c.terminate.unsent hse env), out)

def consoleStep (s : Pico × Console) (env : PicoEnv) (ev : UsbEvent) :
    (Pico × Console) × List ConsoleOut :=
  match edit s.2 ev with
  | .editing c => ((s.1, c), [])
  | .complete c => completeLine m hse env s.1 c

/-- The sender on its USB input; nothing comes on uart1. -/
def usbConsole : Machine (Pico × Console) (PicoEnv × UsbEvent) ConsoleOut where
  step s e := consoleStep m hse s e.1 e.2

/-! ## Passes without a line -/

section

variable {m hse}

theorem consoleStep_of_editing {s : Pico × Console} {env : PicoEnv} {ev : UsbEvent}
    {c : Console} (h : edit s.2 ev = .editing c) :
    consoleStep m hse s env ev = ((s.1, c), []) := by
  rw [consoleStep, h]

theorem exists_line_of_complete {s : Pico × Console} {env : PicoEnv} {ev : UsbEvent}
    {c : Console} (h : edit s.2 ev = .complete c) :
    .line c.typed ∈ (consoleStep m hse s env ev).2 := by
  rw [consoleStep, h]
  simp only [completeLine]
  split
  · exact List.mem_cons_self
  · split
    · exact List.mem_cons_of_mem _ List.mem_cons_self
    · exact List.mem_cons_self

/-- The events only edit, from `c` to the last console. -/
inductive EditsTo : Console → List UsbEvent → Console → Prop where
  | nil (c : Console) : EditsTo c [] c
  | cons {c c' c'' : Console} {ev : UsbEvent} {evs : List UsbEvent} :
      edit c ev = .editing c' → EditsTo c' evs c'' → EditsTo c (ev :: evs) c''

/-- Editing does nothing else. -/
theorem run_of_editsTo {s : Pico × Console} {es : List (PicoEnv × UsbEvent)}
    {c : Console} (h : EditsTo s.2 (es.map Prod.snd) c) :
    (usbConsole m hse).run s es = (s.1, c) ∧ (usbConsole m hse).trace s es = [] := by
  induction es generalizing s with
  | nil =>
      cases h
      exact ⟨rfl, rfl⟩
  | cons e es ih =>
      cases h with
      | @cons _ c₁ _ _ _ hedit hrest =>
          have hstep : (usbConsole m hse).step s e = ((s.1, c₁), []) :=
            consoleStep_of_editing hedit
          obtain ⟨hrun, htrace⟩ := ih (s := (s.1, c₁)) hrest
          rw [Machine.run_cons, Machine.trace_cons, hstep, hrun, htrace]
          exact ⟨rfl, rfl⟩

/-- Events that complete no line only edit. -/
theorem editsTo_of_no_line {s : Pico × Console} {es : List (PicoEnv × UsbEvent)}
    (h : ∀ text, .line text ∉ (usbConsole m hse).trace s es) :
    ∃ c, EditsTo s.2 (es.map Prod.snd) c := by
  induction es generalizing s with
  | nil => exact ⟨s.2, .nil s.2⟩
  | cons e es ih =>
      cases hedit : edit s.2 e.2 with
      | complete c =>
          exfalso
          apply h c.typed
          rw [Machine.trace_cons]
          exact List.mem_append_left _ (exists_line_of_complete hedit)
      | editing c =>
          have hstep : (usbConsole m hse).step s e = ((s.1, c), []) :=
            consoleStep_of_editing hedit
          rw [Machine.trace_cons, hstep, List.nil_append] at h
          obtain ⟨c', hedits⟩ := ih h
          exact ⟨c', .cons hedit hedits⟩

theorem EditsTo.split {c c'' : Console} {evs evs' : List UsbEvent}
    (h : EditsTo c (evs ++ evs') c'') :
    ∃ c', EditsTo c evs c' ∧ EditsTo c' evs' c'' := by
  induction evs generalizing c with
  | nil => exact ⟨c, .nil c, h⟩
  | cons ev evs ih =>
      cases h with
      | cons hedit hrest =>
          obtain ⟨c', hleft, hright⟩ := ih hrest
          exact ⟨c', .cons hedit hleft, hright⟩

end

/-! ## Marks -/

/-- The bytes among the events. -/
def usbBytes (evs : List UsbEvent) : List Marked :=
  evs.filterMap fun
    | .byte b => some b
    | .silence => none

namespace Console

variable {c c' : Console} {b x : Marked}

theorem mem_held_put (hx : x ∈ (c.put b).held) : x = b ∨ x ∈ c.held := by
  rw [put] at hx
  split at hx
  · simp only [held, messageBuffer, List.mem_append, List.mem_singleton] at hx ⊢
    rcases hx with ((hx | hx) | hx) | hx
    · exact Or.inr (Or.inl (Or.inl hx))
    · exact Or.inl hx
    · exact Or.inr (Or.inl (Or.inr (List.mem_of_mem_tail hx)))
    · exact Or.inr (Or.inr hx)
  · exact Or.inr hx

theorem mem_messageBuffer_put (h : c.typed.length < msgBufSize - 1) :
    b ∈ (c.put b).messageBuffer := by
  rw [put, if_pos h]
  simp [messageBuffer]

/-- Rubbing out keeps every byte in the buffer. -/
theorem mem_messageBuffer_rubOut :
    x ∈ c.rubOut.messageBuffer ↔ x ∈ c.messageBuffer := by
  rcases List.eq_nil_or_concat c.typed with hnil | ⟨init, last, hconcat⟩
  · simp [rubOut, messageBuffer, hnil]
  · simp [rubOut, messageBuffer, hconcat]

/-- The mark of `x` is that of a byte that was held before, or of the byte `b` if
that is typed. -/
def MarkFrom (c : Console) (b x : Marked) : Prop :=
  (∃ y ∈ c.held, x.fromKey = y.fromKey) ∨
    x.fromKey = b.fromKey ∧ isTypable b.byte = true

theorem markFrom_of_mem (hx : x ∈ c.held) : c.MarkFrom b x :=
  Or.inl ⟨x, hx, rfl⟩

theorem isTypable_of_isPrintable (h : isPrintable b.byte = true) :
    isTypable b.byte = true := by
  rw [isTypable, h, Bool.true_or]

theorem isTypable_of_isLineEnd (h : isLineEnd b.byte = true) :
    isTypable b.byte = true := by
  rw [isTypable, h, Bool.or_true]

theorem not_isTypable_of_isRubOut (h : isRubOut b.byte = true) :
    isTypable b.byte = false := by
  rw [isRubOut, Bool.or_eq_true, beq_iff_eq, beq_iff_eq] at h
  rcases h with h | h
  · rw [h]
    rfl
  · rw [h]
    rfl

theorem markFrom_burst {lineEnd : Marked} (hpeek : c.peeking = some lineEnd)
    (hx : x ∈ (c.burst lineEnd b).held) : c.MarkFrom b x := by
  have hfeed {y : Marked}
      (hy : y ∈ (({ c with peeking := none } : Console).putLineFeed lineEnd).held) :
      c.MarkFrom b y := by
    rcases mem_held_put hy with rfl | hy
    · exact Or.inl ⟨lineEnd, by simp [held, hpeek], rfl⟩
    · refine markFrom_of_mem (List.mem_append_left _ ?_)
      simpa [held, messageBuffer] using hy
  rw [burst] at hx
  split at hx
  · next hprint =>
      rcases mem_held_put hx with rfl | hx
      · exact Or.inr ⟨rfl, isTypable_of_isPrintable hprint⟩
      · exact hfeed hx
  · split at hx
    · next hend =>
        rcases mem_held_put hx with rfl | hx
        · exact Or.inr ⟨rfl, isTypable_of_isLineEnd hend⟩
        · exact hfeed hx
    · exact hfeed hx

/-- What the loop holds after a byte comes from there. -/
theorem markFrom_edit (h : EditedBy c b c') (hx : x ∈ c'.held) :
    c.MarkFrom b x := by
  cases h with
  | burst lineEnd peeking eq =>
      rw [eq] at hx
      exact markFrom_burst peeking hx
  | lineEnd peeking byte eq =>
      rw [eq] at hx
      rcases List.mem_append.mp hx with hx | hx
      · exact markFrom_of_mem (List.mem_append_left _ hx)
      · have hb : x = b := by simpa using hx
        rw [hb]
        exact Or.inr ⟨rfl, isTypable_of_isLineEnd byte⟩
  | rubOut peeking byte eq =>
      rw [eq] at hx
      apply markFrom_of_mem
      rcases List.mem_append.mp hx with hx | hx
      · exact List.mem_append_left _ (mem_messageBuffer_rubOut.mp hx)
      · exact List.mem_append_right _ hx
  | printed peeking byte short eq =>
      rw [eq] at hx
      rcases mem_held_put hx with rfl | hx
      · exact Or.inr ⟨rfl, isTypable_of_isPrintable byte⟩
      · exact markFrom_of_mem hx
  | ignored peeking byte short eq =>
      rw [eq] at hx
      exact markFrom_of_mem hx

/-- Nothing comes from a key. -/
def Clean (c : Console) : Prop :=
  ∀ b ∈ c.held, b.fromKey = false

/-- What does not come from a key, or is not typed, leaves nothing of a key. -/
theorem Clean.editsTo {evs : List UsbEvent} (h : EditsTo c evs c') (hc : c.Clean)
    (hbytes : ∀ b ∈ usbBytes evs, b.fromKey = false ∨ isTypable b.byte = false) :
    c'.Clean := by
  induction h with
  | nil c => exact hc
  | @cons c c₁ c' ev evs hedit hrest ih =>
      cases ev with
      | silence =>
          obtain ⟨-, rfl⟩ := editing_of_silence hedit
          exact ih hc hbytes
      | byte b =>
          obtain ⟨hb, hbytes⟩ := List.forall_mem_cons.mp hbytes
          refine ih ?_ hbytes
          intro x hx
          rcases markFrom_edit (editedBy_of_editing hedit) hx with
            ⟨y, hy, hmark⟩ | ⟨hmark, htypable⟩
          · rw [hmark]
            exact hc y hy
          · rcases hb with hb | hb
            · rw [hmark, hb]
            · rw [hb] at htypable
              cases htypable

/-! ## A typed byte stays -/

theorem length_typed_put (b : Marked) (c : Console) :
    (c.put b).typed.length ≤ c.typed.length + 1 := by
  rw [put]
  split
  · simp
  · exact Nat.le_succ _

theorem mem_typed_put (hx : x ∈ c.typed) : x ∈ (c.put b).typed := by
  rw [put]
  split
  · exact List.mem_append_left _ hx
  · exact hx

theorem peeking_put (b : Marked) (c : Console) : (c.put b).peeking = c.peeking := by
  rw [put]
  split
  · rfl
  · rfl

theorem length_typed_burst (lineEnd next : Marked) (c : Console) :
    (c.burst lineEnd next).typed.length ≤ c.typed.length + 2 := by
  have hfeed : (({ c with peeking := none } : Console).putLineFeed
      lineEnd).typed.length ≤ c.typed.length + 1 := length_typed_put _ _
  rw [burst]
  split
  · exact (length_typed_put _ _).trans (Nat.add_le_add_right hfeed 1)
  · split
    · exact (length_typed_put _ _).trans (Nat.add_le_add_right hfeed 1)
    · exact hfeed.trans (Nat.le_succ _)

/-- The line feed of a burst is in the line, if there was room. -/
theorem lineFeed_mem_burst (hroom : c.typed.length < msgBufSize - 1)
    (lineEnd next : Marked) :
    { lineEnd with byte := 10 } ∈ (c.burst lineEnd next).typed := by
  have hfeed : { lineEnd with byte := 10 } ∈
      (({ c with peeking := none } : Console).putLineFeed lineEnd).typed := by
    rw [putLineFeed, put, if_pos hroom]
    exact List.mem_append_right _ (List.mem_singleton_self _)
  rw [burst]
  split
  · exact mem_typed_put hfeed
  · split
    · exact mem_typed_put hfeed
    · exact hfeed

theorem peeking_burst (lineEnd next : Marked) (c : Console) :
    (c.burst lineEnd next).peeking = none := by
  have hfeed : (({ c with peeking := none } : Console).putLineFeed
      lineEnd).peeking = none := peeking_put _ _
  rw [burst]
  split
  · exact (peeking_put _ _).trans hfeed
  · split
    · exact (peeking_put _ _).trans hfeed
    · exact hfeed

/-- Nothing is being peeked behind, and the line is not long enough to be sent. -/
structure Short (c : Console) : Prop where
  peeking : c.peeking = none
  length : c.typed.length < msgBufSize - 128

/-- A byte that is no line end and does not rub out ends a peek or leaves a short
line. -/
theorem short_of_editedBy (h : EditedBy c b c') (hend : isLineEnd b.byte = false)
    (hrub : isRubOut b.byte = false) :
    c'.peeking = none ∧ (c.peeking = none → c'.Short) := by
  cases h with
  | burst lineEnd peeking eq =>
      rw [eq]
      refine ⟨peeking_burst lineEnd b c, ?_⟩
      intro hnone
      rw [peeking] at hnone
      cases hnone
  | lineEnd peeking byte eq =>
      rw [hend] at byte
      cases byte
  | rubOut peeking byte eq =>
      rw [hrub] at byte
      cases byte
  | printed peeking byte short eq =>
      have hnone : c'.peeking = none := by
        rw [eq, peeking_put, peeking]
      exact ⟨hnone, fun _ => ⟨hnone, short⟩⟩
  | ignored peeking byte short eq =>
      have hnone : c'.peeking = none := by
        rw [eq, peeking]
      exact ⟨hnone, fun _ => ⟨hnone, short⟩⟩

/-- Such bytes leave a short line, the first of them perhaps not. -/
theorem short_of_editsTo {evs : List UsbEvent} (h : EditsTo c evs c')
    (hbytes : ∀ b ∈ usbBytes evs,
      isLineEnd b.byte = false ∧ isRubOut b.byte = false)
    (hstart : c.Short ∨ c.peeking = none ∧ 1 ≤ (usbBytes evs).length ∨
      2 ≤ (usbBytes evs).length) : c'.Short := by
  induction h with
  | nil c =>
      rcases hstart with hshort | ⟨-, hlen⟩ | hlen
      · exact hshort
      · cases hlen
      · cases hlen
  | @cons c c₁ c' ev evs hedit hrest ih =>
      cases ev with
      | silence =>
          obtain ⟨-, rfl⟩ := editing_of_silence hedit
          exact ih hbytes hstart
      | byte b =>
          obtain ⟨⟨hend, hrub⟩, hbytes⟩ := List.forall_mem_cons.mp hbytes
          obtain ⟨hpeek, hshort⟩ :=
            short_of_editedBy (editedBy_of_editing hedit) hend hrub
          apply ih hbytes
          rcases hstart with hstart | ⟨hnone, -⟩ | hlen
          · exact Or.inl (hshort hstart.peeking)
          · exact Or.inl (hshort hnone)
          · exact Or.inr (Or.inl ⟨hpeek, Nat.le_of_succ_le_succ hlen⟩)

/-- What a byte of a key leaves behind where there is room for it: a longer line by
two at most, and something of a key if there was some or the byte is typed. -/
theorem fromKey_editedBy (h : EditedBy c b c') (hb : b.fromKey = true)
    (hroom : c.typed.length < msgBufSize - 1)
    (hpeek : ∀ e ∈ c.peeking, e.fromKey = true) :
    c'.typed.length ≤ c.typed.length + 2 ∧ (∀ e ∈ c'.peeking, e.fromKey = true) ∧
      ((∃ x ∈ c.held, x.fromKey = true) ∨ isTypable b.byte = true →
        ∃ x ∈ c'.held, x.fromKey = true) := by
  cases h with
  | burst lineEnd peeking eq =>
      rw [eq, peeking_burst]
      refine ⟨length_typed_burst lineEnd b c, fun e he => (by cases he), fun _ => ?_⟩
      refine ⟨_, List.mem_append_left _ (List.mem_append_left _
        (lineFeed_mem_burst hroom lineEnd b)), hpeek lineEnd peeking⟩
  | lineEnd peeking byte eq =>
      rw [eq]
      refine ⟨Nat.le_add_right _ 2, ?_, fun _ => ?_⟩
      · intro e he
        rw [← Option.mem_some_iff.mp he]
        exact hb
      · exact ⟨b, List.mem_append_right _ (Option.mem_toList.mpr rfl), hb⟩
  | rubOut peeking byte eq =>
      rw [eq]
      refine ⟨?_, hpeek, ?_⟩
      · simp only [Console.rubOut, List.length_dropLast]
        omega
      · rintro (⟨x, hx, hmark⟩ | htypable)
        · refine ⟨x, ?_, hmark⟩
          rcases List.mem_append.mp hx with hx | hx
          · exact List.mem_append_left _ (mem_messageBuffer_rubOut.mpr hx)
          · exact List.mem_append_right _ hx
        · rw [not_isTypable_of_isRubOut byte] at htypable
          cases htypable
  | printed peeking byte short eq =>
      rw [eq, peeking_put]
      refine ⟨(length_typed_put b c).trans (Nat.le_succ _), hpeek, fun _ => ?_⟩
      exact ⟨b, List.mem_append_left _ (mem_messageBuffer_put hroom), hb⟩
  | ignored peeking byte short eq =>
      rw [eq]
      refine ⟨Nat.le_add_right _ 2, hpeek, ?_⟩
      rintro (hmark | htypable)
      · exact hmark
      · rw [byte] at htypable
        cases htypable

/-- With room for it, a typed byte of a key leaves something of the key, whatever of
the key follows. -/
theorem fromKey_editsTo {evs : List UsbEvent} (h : EditsTo c evs c')
    (hbytes : ∀ b ∈ usbBytes evs, b.fromKey = true)
    (hroom : c.typed.length + 2 * (usbBytes evs).length < msgBufSize)
    (hpeek : ∀ e ∈ c.peeking, e.fromKey = true)
    (htyped : (∃ x ∈ c.held, x.fromKey = true) ∨
      ∃ b ∈ usbBytes evs, isTypable b.byte = true) :
    ∃ x ∈ c'.held, x.fromKey = true := by
  induction h with
  | nil c =>
      rcases htyped with hmark | ⟨b, hb, -⟩
      · exact hmark
      · cases hb
  | @cons c c₁ c' ev evs hedit hrest ih =>
      cases ev with
      | silence =>
          obtain ⟨-, rfl⟩ := editing_of_silence hedit
          exact ih hbytes hroom hpeek htyped
      | byte b =>
          obtain ⟨hb, hbytes⟩ := List.forall_mem_cons.mp hbytes
          have hlen : (usbBytes (.byte b :: evs)).length = (usbBytes evs).length + 1 :=
            rfl
          rw [hlen] at hroom
          obtain ⟨hlong, hpeek', hkept⟩ := fromKey_editedBy
            (editedBy_of_editing hedit) hb (by omega) hpeek
          refine ih hbytes (by omega) hpeek' ?_
          rcases htyped with hmark | ⟨b', hb', htypable⟩
          · exact Or.inl (hkept (Or.inl hmark))
          · rcases List.mem_cons.mp hb' with rfl | hb'
            · exact Or.inl (hkept (Or.inr htypable))
            · exact Or.inr ⟨b', hb', htypable⟩

/-- Bytes that are no line ends, and for which there is room, only edit. -/
theorem exists_editsTo {evs : List UsbEvent} (hpeek : c.peeking = none)
    (hbytes : ∀ b ∈ usbBytes evs, isLineEnd b.byte = false)
    (hroom : c.typed.length + (usbBytes evs).countP (isPrintable ·.byte) <
      msgBufSize - 128) : ∃ c', EditsTo c evs c' := by
  induction evs generalizing c with
  | nil => exact ⟨c, .nil c⟩
  | cons ev evs ih =>
      cases ev with
      | silence =>
          have hedit : LifiAuth.edit c .silence = .editing c := by
            rw [LifiAuth.edit, hpeek]
          obtain ⟨c', hrest⟩ := ih hpeek hbytes hroom
          exact ⟨c', .cons hedit hrest⟩
      | byte b =>
          obtain ⟨hend, hbytes⟩ := List.forall_mem_cons.mp hbytes
          have hcount : (usbBytes (.byte b :: evs)).countP (isPrintable ·.byte) =
              (usbBytes evs).countP (isPrintable ·.byte) +
                if isPrintable b.byte = true then 1 else 0 := List.countP_cons
          rw [hcount] at hroom
          -- whatever the byte does, it leaves room for the ones after it
          have hnext {c₁ : Console} (hedit : LifiAuth.edit c (.byte b) = .editing c₁)
              (hpeek₁ : c₁.peeking = none)
              (hlen : c₁.typed.length + (usbBytes evs).countP (isPrintable ·.byte) <
                msgBufSize - 128) : ∃ c', EditsTo c (.byte b :: evs) c' := by
            obtain ⟨c', hrest⟩ := ih hpeek₁ hbytes hlen
            exact ⟨c', .cons hedit hrest⟩
          cases hrub : isRubOut b.byte && !c.typed.isEmpty with
          | true =>
              have hshorter : c.rubOut.typed.length ≤ c.typed.length := by
                simp [rubOut]
              have hedit : LifiAuth.edit c (.byte b) = .editing c.rubOut := by
                simp only [LifiAuth.edit, hpeek, hend, hrub, if_true,
                  Bool.false_eq_true, if_false]
              exact hnext hedit hpeek (by omega)
          | false =>
              cases hprint : isPrintable b.byte with
              | true =>
                  rw [hprint, if_pos rfl] at hroom
                  have hlonger := length_typed_put b c
                  have hedit : LifiAuth.edit c (.byte b) = .editing (c.put b) := by
                    simp only [LifiAuth.edit, hpeek, hend, hrub, hprint, if_true,
                      Bool.false_eq_true, if_false]
                    exact if_neg (by omega)
                  exact hnext hedit ((peeking_put b c).trans hpeek) (by omega)
              | false =>
                  rw [hprint, if_neg Bool.false_ne_true] at hroom
                  have hedit : LifiAuth.edit c (.byte b) = .editing c := by
                    simp only [LifiAuth.edit, hpeek, hend, hrub, hprint,
                      Bool.false_eq_true, if_false]
                    exact if_neg (by omega)
                  exact hnext hedit hpeek (by omega)

end Console

end LifiAuth
