import LifiAuth.Support.Bytes

/-!
# A serial line with its timing

What a program can observe of a UART is the order of the received bytes, the
moments at which no byte is waiting, and whether a read that waits for more bytes
gives up before they come.  A line is therefore a list of events.  `timeout` marks
a gap long enough to expire the deadline of a read that is pending there; for a
program that is only polling it is a moment without data, like `idle`.
-/

namespace LifiAuth

/-- One thing that happens on the receiving end of a serial line. -/
inductive RxEvent where
  | byte (b : UInt8)
  | idle
  | timeout
  deriving DecidableEq, Repr

/-- Wait for exactly `n` bytes (`read_exact_timeout` of the receiver and
`uart_read_blocking_timeout_us` of the Pico).  A read whose deadline expires has
already taken the bytes that came before; the end of the line is a gap that never
ends. -/
def readExact : (n : ℕ) → List RxEvent → Option (Bytes n) × List RxEvent
  | 0, line => (some List.Vector.nil, line)
  | _ + 1, [] => (none, [])
  | n + 1, .byte b :: line =>
      ((readExact n line).1.map (List.Vector.cons b), (readExact n line).2)
  | n + 1, .idle :: line => readExact (n + 1) line
  | _ + 1, .timeout :: line => (none, line)

/-- A read never puts anything back. -/
theorem suffix_readExact (n : ℕ) (line : List RxEvent) :
    (readExact n line).2 <:+ line := by
  induction line generalizing n with
  | nil => cases n <;> exact List.suffix_refl []
  | cons e line ih =>
      cases n with
      | zero => exact List.suffix_refl _
      | succ n =>
          cases e with
          | byte b => exact (ih n).trans (List.suffix_cons _ line)
          | idle => exact (ih (n + 1)).trans (List.suffix_cons _ line)
          | timeout => exact List.suffix_cons _ line

theorem length_readExact_le (n : ℕ) (line : List RxEvent) :
    (readExact n line).2.length ≤ line.length :=
  (suffix_readExact n line).length_le

/-! ## Lines without timeouts -/

/-- The line delivers exactly the bytes `bs`, with any pauses between them but
without letting a pending read expire. -/
inductive Carries : List RxEvent → List UInt8 → Prop where
  | nil : Carries [] []
  | byte (b : UInt8) {line : List RxEvent} {bs : List UInt8} :
      Carries line bs → Carries (.byte b :: line) (b :: bs)
  | idle {line : List RxEvent} {bs : List UInt8} :
      Carries line bs → Carries (.idle :: line) bs

/-- Bytes that arrive back to back. -/
def steady (bs : List UInt8) : List RxEvent :=
  bs.map RxEvent.byte

theorem carries_steady (bs : List UInt8) : Carries (steady bs) bs := by
  induction bs with
  | nil => exact .nil
  | cons b bs ih => exact .byte b ih

@[simp] theorem length_steady (bs : List UInt8) :
    (steady bs).length = bs.length :=
  List.length_map _

theorem Carries.append {line line' : List RxEvent} {bs bs' : List UInt8}
    (h : Carries line bs) (h' : Carries line' bs') :
    Carries (line ++ line') (bs ++ bs') := by
  induction h with
  | nil => exact h'
  | byte b _ ih => exact .byte b ih
  | idle _ ih => exact .idle ih

/-- A read returns the next bytes that come without a timeout, and leaves the rest. -/
theorem readExact_append_of_carries {n : ℕ} (bs : Bytes n) {line : List RxEvent}
    {more : List UInt8} (h : Carries line (bs.toList ++ more))
    (rest : List RxEvent) :
    ∃ line', readExact n (line ++ rest) = (some bs, line' ++ rest) ∧
      Carries line' more := by
  induction line generalizing n with
  | nil =>
      have hempty : bs.toList = [] := by
        cases hbs : bs.toList with
        | nil => rfl
        | cons b l => rw [hbs] at h; cases h
      have hn : n = 0 := by
        simpa [hempty] using bs.toList_length.symm
      subst hn
      refine ⟨[], ?_, by simpa [hempty] using h⟩
      rw [List.Vector.eq_nil bs, readExact]
  | cons e line ih =>
      cases n with
      | zero =>
          rw [List.Vector.eq_nil bs] at h ⊢
          exact ⟨e :: line, rfl, by simpa using h⟩
      | succ n =>
          cases e with
          | byte b =>
              have hcons : bs.toList = bs.head :: bs.tail.toList := by
                rw [← List.Vector.toList_cons, List.Vector.cons_head_tail]
              rw [hcons, List.cons_append] at h
              cases h with
              | byte _ h =>
                  obtain ⟨line', hread, hrest⟩ := ih bs.tail h
                  have hread' : readExact n (line ++ rest) =
                      (some bs.tail, line' ++ rest) := hread
                  refine ⟨line', ?_, hrest⟩
                  rw [List.cons_append, readExact, hread', Option.map_some,
                    List.Vector.cons_head_tail]
          | idle =>
              cases h with
              | idle h =>
                  obtain ⟨line', hread, hrest⟩ := ih bs h
                  exact ⟨line', by simpa [readExact] using hread, hrest⟩
          | timeout => cases h

/-- On a line without timeouts a read returns the next bytes and leaves the rest. -/
theorem readExact_of_carries {n : ℕ} (bs : Bytes n) {line : List RxEvent}
    {rest : List UInt8} (h : Carries line (bs.toList ++ rest)) :
    ∃ line', readExact n line = (some bs, line') ∧ Carries line' rest ∧
      line'.length ≤ line.length := by
  obtain ⟨line', hline', hcarries⟩ := readExact_append_of_carries bs h []
  rw [List.append_nil, List.append_nil] at hline'
  refine ⟨line', hline', hcarries, ?_⟩
  simpa [hline'] using length_readExact_le n line

/-- A read that succeeds has taken its bytes without a timeout. -/
theorem carries_of_readExact {n : ℕ} {bs : Bytes n} {line line' : List RxEvent}
    (h : readExact n line = (some bs, line')) :
    ∃ taken, line = taken ++ line' ∧ Carries taken bs.toList := by
  induction line generalizing n with
  | nil =>
      cases n with
      | zero =>
          obtain ⟨hbs, rfl⟩ := Prod.mk.inj h
          exact ⟨[], rfl, by rw [← Option.some.inj hbs]; exact .nil⟩
      | succ n => cases (Prod.mk.inj h).1
  | cons e line ih =>
      cases n with
      | zero =>
          obtain ⟨hbs, rfl⟩ := Prod.mk.inj h
          exact ⟨[], rfl, by rw [← Option.some.inj hbs]; exact .nil⟩
      | succ n =>
          cases e with
          | byte c =>
              obtain ⟨hread, hrest⟩ := Prod.mk.inj h
              obtain ⟨bs', hbs', rfl⟩ := Option.map_eq_some_iff.mp hread
              obtain ⟨taken, rfl, hcarries⟩ := ih (Prod.ext hbs' hrest)
              refine ⟨.byte c :: taken, rfl, ?_⟩
              rw [List.Vector.toList_cons]
              exact .byte c hcarries
          | idle =>
              obtain ⟨taken, rfl, hcarries⟩ := ih h
              exact ⟨.idle :: taken, rfl, .idle hcarries⟩
          | timeout => cases (Prod.mk.inj h).1

/-! ## The bytes of a line -/

def receivedBytes : List RxEvent → List UInt8
  | [] => []
  | .byte b :: line => b :: receivedBytes line
  | .idle :: line => receivedBytes line
  | .timeout :: line => receivedBytes line

@[simp] theorem receivedBytes_nil : receivedBytes [] = [] := rfl

@[simp] theorem receivedBytes_append (line line' : List RxEvent) :
    receivedBytes (line ++ line') = receivedBytes line ++ receivedBytes line' := by
  induction line with
  | nil => rfl
  | cons e line ih =>
      cases e with
      | byte b => exact congrArg (b :: ·) ih
      | idle => exact ih
      | timeout => exact ih

theorem length_receivedBytes_le {line line' : List RxEvent} (h : line' <:+ line) :
    (receivedBytes line').length ≤ (receivedBytes line).length := by
  obtain ⟨taken, rfl⟩ := h
  rw [receivedBytes_append, List.length_append]
  exact Nat.le_add_left _ _

theorem Carries.receivedBytes_eq {line : List RxEvent} {bs : List UInt8}
    (h : Carries line bs) : receivedBytes line = bs := by
  induction h with
  | nil => rfl
  | byte b _ ih => exact congrArg (b :: ·) ih
  | idle _ ih => exact ih

/-- What is left of a line without timeouts is one. -/
theorem Carries.of_suffix {line line' : List RxEvent} {bs : List UInt8}
    (h : Carries line bs) (hsuffix : line' <:+ line) :
    Carries line' (receivedBytes line') := by
  induction h generalizing line' with
  | nil =>
      obtain rfl := List.suffix_nil.mp hsuffix
      exact .nil
  | byte b h ih =>
      rcases List.suffix_cons_iff.mp hsuffix with rfl | hsuffix
      · exact .byte b (ih (List.suffix_refl _))
      · exact ih hsuffix
  | idle h ih =>
      rcases List.suffix_cons_iff.mp hsuffix with rfl | hsuffix
      · exact .idle (ih (List.suffix_refl _))
      · exact ih hsuffix

end LifiAuth
