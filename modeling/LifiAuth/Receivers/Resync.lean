import LifiAuth.Receivers.Uart
import LifiAuth.Dash.ParserSound

/-!
# How flash_receiver and ask_receiver resynchronise

Behind noise the hunt finds the next preamble exactly when the noise leaves no start
of a preamble open.  A byte is taken for a type behind a preamble alone exactly as
long as the dispatch is left through a reset.
-/

namespace LifiAuth

open Support

/-! ## What one pass can do -/

theorem dispatchType_of_known {byte : UInt8} (h : KnownType byte)
    (line : List RxEvent) : dispatchType byte line = readFrame byte line := by
  rcases h with rfl | rfl | rfl | rfl
  · rfl
  · rfl
  · rfl
  · rfl

theorem dispatchType_of_unknown {byte : UInt8} (h : ¬ KnownType byte)
    (line : List RxEvent) : dispatchType byte line = (.unknownType [byte], line) := by
  simp only [KnownType, not_or] at h
  obtain ⟨hkeyId, hhs2, hencrypted, hfile⟩ := h
  rw [dispatchType, if_neg hkeyId, if_neg hhs2, if_neg hencrypted, if_neg hfile]

theorem suffix_dispatchType (byte : UInt8) (line : List RxEvent) :
    (dispatchType byte line).2 <:+ line := by
  by_cases h : KnownType byte
  · rw [dispatchType_of_known h]
    exact suffix_readFrame byte line
  · rw [dispatchType_of_unknown h]

theorem readShort_ne_unknownType (type : UInt8) (accepts : ℕ → Bool)
    (mk : (payload : List UInt8) → accepts payload.length = true → Frame)
    (line : List RxEvent) (dbg : List UInt8) :
    (readShort type accepts mk line).1 ≠ .unknownType dbg := by
  rw [readShort]
  split
  · exact UartReport.noConfusion
  · simp only
    split
    · split
      · exact UartReport.noConfusion
      · split
        · exact UartReport.noConfusion
        · split
          · exact UartReport.noConfusion
          · exact UartReport.noConfusion
    · exact UartReport.noConfusion

theorem readData_ne_unknownType (t : DataType) (line : List RxEvent)
    (dbg : List UInt8) : (readData t line).1 ≠ .unknownType dbg := by
  rw [readData]
  split
  · exact UartReport.noConfusion
  · simp only
    split
    · exact UartReport.noConfusion
    · split
      · split
        · exact UartReport.noConfusion
        · exact UartReport.noConfusion
      · exact UartReport.noConfusion

theorem dispatchType_ne_unknownType {byte : UInt8} (h : KnownType byte)
    (line : List RxEvent) (dbg : List UInt8) :
    (dispatchType byte line).1 ≠ .unknownType dbg := by
  rcases h with rfl | rfl | rfl | rfl
  · have hne : (readKeyIdOnly line).1 ≠ .unknownType dbg :=
      readShort_ne_unknownType _ _ _ line dbg
    exact hne
  · have hne : (readSstHs2 line).1 ≠ .unknownType dbg :=
      readShort_ne_unknownType _ _ _ line dbg
    exact hne
  · exact readData_ne_unknownType _ line dbg
  · exact readData_ne_unknownType _ line dbg

/-- A frame comes from the branch of its own type, and takes its length, payload and
checksum from the line. -/
theorem dispatchType_sound {byte : UInt8} {line line' : List RxEvent} {f : Frame}
    (h : dispatchType byte line = (.frame f, line')) :
    byte = f.type ∧ (receivedBytes line).length =
      f.payload.length + 4 + (receivedBytes line').length := by
  by_cases hknown : KnownType byte
  · rw [dispatchType_of_known hknown] at h
    obtain ⟨window, body, rfl, hwindow, -, body', ⟨len, crc, -, -, rfl⟩, hbytes⟩ :=
      readFrame_sound h
    obtain ⟨htype, rfl⟩ := List.cons.inj (List.append_cancel_left hbytes)
    refine ⟨htype, ?_⟩
    rw [receivedBytes_append, hwindow.receivedBytes_eq]
    simp only [List.length_append, List.Vector.toList_length]
    omega
  · rw [dispatchType_of_unknown hknown] at h
    cases (Prod.mk.inj h).1

namespace OtherReceiver

variable (receiver : OtherReceiver)

theorem next_eq (r : UartReport) : receiver.next r = 0 ∨ receiver.next r = 4 := by
  cases receiver with
  | flash => cases r <;> simp [next, flashReceiverNext]
  | ask =>
      cases r with
      | frame f => cases f <;> simp [next, askReceiverNext]
      | _ => simp [next, askReceiverNext]

/-- A pass takes no byte, a byte of the hunt, or a type and what its branch reads. -/
inductive Pass : Uart → UartReport → Uart → Prop where
  | poll (k : ℕ) {line line' : List RxEvent} :
      line' <:+ line → receivedBytes line' = receivedBytes line →
      Pass ⟨k, line⟩ .quiet ⟨k, line'⟩
  | hunt {k : ℕ} (hk : k < 4) (b : UInt8) (line : List RxEvent) :
      Pass ⟨k, .byte b :: line⟩ .quiet ⟨strictStep preamble k b, line⟩
  | type (b : UInt8) (line : List RxEvent) :
      Pass ⟨4, .byte b :: line⟩ (dispatchType b line).1
        ⟨receiver.next (dispatchType b line).1, (dispatchType b line).2⟩

theorem iter_eq_strictIter (u : Uart) :
    receiver.iter u = strictIter receiver.next u := by
  cases receiver <;> rfl

/-- Below state four the parser is the library's strict hunt for the preamble. -/
theorem strictByte_hunt (next : UartReport → ℕ) {k : ℕ} (hk : k < 4) (b : UInt8)
    (line : List RxEvent) :
    strictByte next k b line = (.quiet, ⟨strictStep preamble k b, line⟩) := by
  have hcases : k = 0 ∨ k = 1 ∨ k = 2 ∨ k = 3 := by omega
  rcases hcases with rfl | rfl | rfl | rfl
  · simp [strictByte, strictStep, preamble, eq_comm]
  · simp [strictByte, strictStep, preamble, eq_comm]
  · simp [strictByte, strictStep, preamble, eq_comm]
  · simp [strictByte, strictStep, preamble, eq_comm]

theorem iter_hunt {k : ℕ} (hk : k < 4) (b : UInt8) (line : List RxEvent) :
    receiver.iter ⟨k, .byte b :: line⟩ =
      (.quiet, ⟨strictStep preamble k b, line⟩) :=
  (receiver.iter_eq_strictIter _).trans (strictByte_hunt _ hk b line)

theorem iter_type (b : UInt8) (line : List RxEvent) :
    receiver.iter ⟨4, .byte b :: line⟩ = ((dispatchType b line).1,
      ⟨receiver.next (dispatchType b line).1, (dispatchType b line).2⟩) :=
  receiver.iter_eq_strictIter _

theorem iter_poll {e : RxEvent} (he : e = .idle ∨ e = .timeout) (k : ℕ)
    (line : List RxEvent) : receiver.iter ⟨k, e :: line⟩ = (.quiet, ⟨k, line⟩) := by
  rw [iter_eq_strictIter]
  rcases he with rfl | rfl
  · rfl
  · rfl

theorem pass_iter {u : Uart} (hu : u.uartState ≤ 4) :
    receiver.Pass u (receiver.iter u).1 (receiver.iter u).2 := by
  obtain ⟨k, line⟩ := u
  cases line with
  | nil =>
      rw [iter_eq_strictIter]
      exact .poll k List.nil_suffix rfl
  | cons e line =>
      cases e with
      | idle =>
          rw [receiver.iter_poll (Or.inl rfl)]
          exact .poll k (List.suffix_cons _ line) rfl
      | timeout =>
          rw [receiver.iter_poll (Or.inr rfl)]
          exact .poll k (List.suffix_cons _ line) rfl
      | byte b =>
          rcases Nat.lt_or_eq_of_le (show k ≤ 4 from hu) with hk | hk
          · rw [receiver.iter_hunt hk]
            exact .hunt hk b line
          · subst hk
            rw [receiver.iter_type]
            exact .type b line

/-! ## How far a pass and a run can get -/

variable {receiver} in
/-- Every message type that is read is followed by what its frame is made of.  So a
frame can only come out of a run that has the bytes for it: those that are still on
the line, and those of the preamble that were counted. -/
theorem Pass.budget {u u' : Uart} {r : UartReport} (h : receiver.Pass u r u')
    (hu : u.uartState ≤ 4) :
    u'.uartState ≤ 4 ∧ u'.line <:+ u.line ∧
      u'.uartState + (receivedBytes u'.line).length ≤
        u.uartState + (receivedBytes u.line).length ∧
      ∀ f, r = .frame f → f.payload.length + 9 + (receivedBytes u'.line).length ≤
        u.uartState + (receivedBytes u.line).length := by
  cases h with
  | poll k hsuffix hbytes =>
      refine ⟨hu, hsuffix, ?_, ?_⟩
      · simp [hbytes]
      · rintro f ⟨⟩
  | @hunt k hk b line =>
      have hle : strictStep preamble k b ≤ k + 1 := by
        unfold strictStep
        split
        · exact le_rfl
        · exact Nat.zero_le _
      refine ⟨?_, List.suffix_cons _ line, ?_, ?_⟩
      · exact strictStep_le_length preamble k b
      · simp only [receivedBytes, List.length_cons]
        omega
      · rintro f ⟨⟩
  | type b line =>
      obtain ⟨window, hline⟩ := suffix_dispatchType b line
      have hlength : (receivedBytes (dispatchType b line).2).length ≤
          (receivedBytes line).length := by
        have hbytes := congrArg (fun l => (receivedBytes l).length) hline
        simp only [receivedBytes_append, List.length_append] at hbytes
        omega
      have hnext := receiver.next_eq (dispatchType b line).1
      refine ⟨by dsimp only; omega,
        (suffix_dispatchType b line).trans (List.suffix_cons _ line), ?_, ?_⟩
      · simp only [receivedBytes, List.length_cons]
        omega
      · intro f hf
        have hread : dispatchType b line = (.frame f, (dispatchType b line).2) :=
          Prod.ext hf rfl
        have hframe := (dispatchType_sound hread).2
        simp only [receivedBytes, List.length_cons]
        omega

variable {receiver} in
theorem step_of_iter {u u' : Uart} {r : UartReport} (h : receiver.iter u = (r, u')) :
    receiver.machine.step u () = (u', [r]) :=
  congrArg (fun step : UartReport × Uart => (step.2, [step.1])) h

theorem suffix_run (passes : List Unit) {u : Uart} (hu : u.uartState ≤ 4) :
    (receiver.machine.run u passes).line <:+ u.line := by
  induction passes generalizing u with
  | nil => exact List.suffix_refl u.line
  | cons pass passes ih =>
      obtain ⟨hstate, hsuffix, -, -⟩ := (receiver.pass_iter hu).budget hu
      exact (ih hstate).trans hsuffix

theorem budget_run (passes : List Unit) {u : Uart} (hu : u.uartState ≤ 4) {f : Frame}
    (hf : .frame f ∈ receiver.machine.trace u passes) :
    f.payload.length + 9 +
        (receivedBytes (receiver.machine.run u passes).line).length ≤
      u.uartState + (receivedBytes u.line).length := by
  induction passes generalizing u with
  | nil => cases hf
  | cons pass passes ih =>
      obtain ⟨hstate, -, hless, hframe⟩ :=
        (receiver.pass_iter hu).budget hu
      rcases List.mem_cons.mp hf with hf | hf
      · have hrest := length_receivedBytes_le (receiver.suffix_run
          passes hstate)
        exact (Nat.add_le_add_left hrest _).trans (hframe f hf.symm)
      · exact (ih hstate hf).trans hless

/-- A stretch in which the hunt only completes with the last byte has no part in the
frames that are handed on. -/
theorem budget_hunt (passes : List Unit) {k : ℕ} (hk : k ≤ 4) (w : List UInt8)
    (hw : ∀ i < w.length, strictHunt preamble k (w.take i) < 4) {line : List RxEvent}
    {rest : List UInt8} (h : receivedBytes line = w ++ rest) {f : Frame}
    (hf : .frame f ∈ receiver.machine.trace ⟨k, line⟩ passes) :
    f.payload.length + 9 +
        (receivedBytes (receiver.machine.run ⟨k, line⟩ passes).line).length ≤
      strictHunt preamble k w + rest.length := by
  induction passes generalizing k w line with
  | nil => cases hf
  | cons pass passes ih =>
      cases w with
      | nil =>
          have hbudget := receiver.budget_run (pass :: passes) (u := ⟨k, line⟩) hk hf
          rwa [h] at hbudget
      | cons b w =>
          have hlt : k < 4 := hw 0 (Nat.zero_lt_succ _)
          have hpoll {e : RxEvent} {line : List RxEvent} (he : e = .idle ∨ e = .timeout)
              (h : receivedBytes line = b :: w ++ rest)
              (hf : .frame f ∈ receiver.machine.trace ⟨k, e :: line⟩ (pass :: passes)) :
              f.payload.length + 9 + (receivedBytes (receiver.machine.run
                  ⟨k, e :: line⟩ (pass :: passes)).line).length ≤
                strictHunt preamble k (b :: w) + rest.length := by
            have hstep := step_of_iter (receiver.iter_poll he k line)
            rw [Machine.trace_cons, hstep] at hf
            rw [Machine.run_cons, hstep]
            exact ih hk (b :: w) hw h (by simpa using hf)
          cases line with
          | nil => cases h
          | cons e line =>
              cases e with
              | idle => exact hpoll (Or.inl rfl) h hf
              | timeout => exact hpoll (Or.inr rfl) h hf
              | byte c =>
                  obtain ⟨rfl, htail⟩ := List.cons.inj h
                  have hstep := step_of_iter (receiver.iter_hunt hlt c line)
                  rw [Machine.trace_cons, hstep] at hf
                  rw [Machine.run_cons, hstep]
                  exact ih (strictStep_le_length preamble k c) w
                    (fun i hi => hw (i + 1) (Nat.succ_lt_succ hi)) htail
                    (by simpa using hf)

/-- Passes over a stretch in which the hunt only completes with the last byte, up to
the next byte. -/
theorem runs_hunt {k : ℕ} (w : List UInt8)
    (hw : ∀ i < w.length, strictHunt preamble k (w.take i) < 4) {line : List RxEvent}
    {b : UInt8} {rest : List UInt8} (h : receivedBytes line = w ++ b :: rest) :
    ∃ passes reports line', receiver.machine.Runs ⟨k, line⟩ passes reports
        ⟨strictHunt preamble k w, .byte b :: line'⟩ ∧
      .byte b :: line' <:+ line ∧ receivedBytes line' = rest := by
  induction line generalizing k w with
  | nil => simp [receivedBytes] at h
  | cons e line ih =>
      have hpoll (he : e = .idle ∨ e = .timeout)
          (h : receivedBytes line = w ++ b :: rest) :
          ∃ passes reports line', receiver.machine.Runs ⟨k, e :: line⟩ passes reports
              ⟨strictHunt preamble k w, .byte b :: line'⟩ ∧
            .byte b :: line' <:+ e :: line ∧ receivedBytes line' = rest := by
        obtain ⟨passes, reports, line', hruns, hsuffix, hrest⟩ := ih w hw h
        have hstep := step_of_iter (receiver.iter_poll he k line)
        exact ⟨() :: passes, _, line', .cons hstep hruns,
          hsuffix.trans (List.suffix_cons e line), hrest⟩
      cases e with
      | idle => exact hpoll (Or.inl rfl) h
      | timeout => exact hpoll (Or.inr rfl) h
      | byte c =>
          cases w with
          | nil =>
              obtain ⟨rfl, hrest⟩ := List.cons.inj h
              exact ⟨[], [], line, .nil _, List.suffix_refl _, hrest⟩
          | cons a w =>
              obtain ⟨rfl, htail⟩ := List.cons.inj h
              have hk : k < 4 := hw 0 (Nat.zero_lt_succ _)
              obtain ⟨passes, reports, line', hruns, hsuffix, hrest⟩ :=
                ih w (k := strictStep preamble k c)
                  (fun i hi => hw (i + 1) (Nat.succ_lt_succ hi)) htail
              have hstep := step_of_iter (receiver.iter_hunt hk c line)
              exact ⟨() :: passes, _, line', .cons hstep hruns,
                hsuffix.trans (List.suffix_cons _ line), hrest⟩

/-! ## Finding the frame behind noise -/

theorem strictHunt_preamble_take (k : ℕ) {j : ℕ} (hj : 0 < j) (hle : j ≤ 4) :
    strictHunt preamble k (preamble.take j) = if k = 0 then j else 0 := by
  split
  · next hk =>
      rw [hk]
      exact strictHunt_take hle
  · next hk => exact strictHunt_missed preamble_freshHead (Nat.pos_of_ne_zero hk) hj

theorem strictHunt_noise_preamble (g : List UInt8) :
    strictHunt preamble 0 (g ++ preamble) =
      if strictHunt preamble 0 g = 0 then 4 else 0 := by
  rw [strictHunt_append]
  exact strictHunt_preamble_take _ (Nat.zero_lt_succ 3) le_rfl

/-- The hunt does not complete before the last byte of a preamble behind noise. -/
theorem strictHunt_take_lt {g : List UInt8} (hg : ¬ preamble <:+: g) {i : ℕ}
    (hi : i < (g ++ preamble).length) :
    strictHunt preamble 0 ((g ++ preamble).take i) < 4 := by
  rw [List.take_append]
  rcases Nat.le_total i g.length with hle | hle
  · rw [Nat.sub_eq_zero_of_le hle, List.take_zero, List.append_nil]
    exact strictHunt_lt_length_of_not_infix hg (List.take_prefix i g)
  · obtain ⟨j, rfl⟩ := Nat.exists_eq_add_of_le hle
    have hj : j < 4 := by
      rw [List.length_append] at hi
      exact Nat.lt_of_add_lt_add_left hi
    rw [List.take_of_length_le hle, Nat.add_sub_cancel_left, strictHunt_append]
    rcases Nat.eq_zero_or_pos j with rfl | hpos
    · exact strictHunt_lt_length_of_not_infix hg (List.prefix_refl g)
    · rw [strictHunt_preamble_take _ hpos hj.le]
      split
      · exact hj
      · exact Nat.zero_lt_succ 3

/-- By the time that all of the line but `rest` is read, the frame has been handed to
frame processing. -/
def Hands (line : List RxEvent) (f : Frame) (rest : List UInt8) : Prop :=
  ∃ passes, .frame f ∈ receiver.machine.trace ⟨0, line⟩ passes ∧
    receivedBytes (receiver.machine.run ⟨0, line⟩ passes).line = rest

theorem dispatchType_of_carries (f : LifiFrame) {line : List RxEvent}
    (rest : List UInt8)
    (h : Carries line ((lenBytes f.payload.length).toList ++ (f.payload ++
      ((crcBytes ([f.type] ++ (lenBytes f.payload.length).toList ++
        f.payload)).toList ++ rest)))) :
    ∃ line', dispatchType f.type line = (.frame f.received, line') ∧
      Carries line' rest := by
  obtain ⟨line', hread, hrest, -⟩ := readFrame_of_carries f rest h
  have hknown : KnownType f.type := by
    cases f with
    | keyIdOnly _ => exact Or.inl rfl
    | sstHs2 _ => exact Or.inr (Or.inl rfl)
    | data t _ _ _ =>
        cases t with
        | encrypted => exact Or.inr (Or.inr (Or.inl rfl))
        | file => exact Or.inr (Or.inr (Or.inr rfl))
  rw [← dispatchType_of_known hknown] at hread
  exact ⟨line', hread, hrest⟩

/-- A frame behind noise without a preamble is handed on exactly when the noise is
made of broken starts of the preamble. -/
theorem hands_iff {g : List UInt8} (hg : ¬ preamble <:+: g) (f : LifiFrame)
    {line : List RxEvent} {rest : List UInt8}
    (h : Carries line (g ++ f.bytes ++ rest)) :
    receiver.Hands line f.received rest ↔ Broken preamble g := by
  rw [← strictHunt_eq_zero_iff hg]
  have hbytes := h.receivedBytes_eq
  rw [f.bytes_eq_sendShort, sendShort] at hbytes
  simp only [List.append_assoc, List.nil_append, List.cons_append] at hbytes
  rw [← List.append_assoc] at hbytes
  have hpreamble := strictHunt_noise_preamble g
  have hlt (i : ℕ) (hi : i < (g ++ preamble).length) := strictHunt_take_lt hg hi
  constructor
  · rintro ⟨passes, hframe, hrest⟩
    by_contra hmissed
    -- the frame's bytes come behind its preamble, too few for the frame
    have hbudget := receiver.budget_hunt passes (Nat.zero_le 4) (g ++ preamble) hlt
      hbytes hframe
    rw [hpreamble, if_neg hmissed, hrest, f.received_payload] at hbudget
    simp only [List.length_cons, List.length_append, List.Vector.toList_length]
      at hbudget
    omega
  · intro hzero
    obtain ⟨passes, reports, line₁, hruns, hsuffix, hline₁⟩ :=
      receiver.runs_hunt (g ++ preamble) hlt hbytes
    rw [hpreamble, if_pos hzero] at hruns
    have hcarries := h.of_suffix ((List.suffix_cons _ line₁).trans hsuffix)
    rw [hline₁] at hcarries
    obtain ⟨line₂, hread, hrest⟩ := dispatchType_of_carries f rest hcarries
    have htype := step_of_iter (receiver.iter_type f.type line₁)
    rw [hread] at htype
    have hall := hruns.append (.cons htype (.nil _))
    refine ⟨passes ++ [()], ?_, ?_⟩
    · rw [hall.trace]
      simp
    · rw [hall.run]
      exact hrest.receivedBytes_eq

/-! ## Types behind preambles -/

/-- Wherever a byte is about to be taken for a type, a preamble has just been read. -/
def TypesBehindPreamble (line : List RxEvent) : Prop :=
  ∀ passes b rest, receiver.machine.run ⟨0, line⟩ passes = ⟨4, .byte b :: rest⟩ →
    preamble ++ b :: receivedBytes rest <:+ receivedBytes line

/-- The dispatch is never left without a reset while bytes are still to come: none
come behind an unknown type, and behind a key id of ask_receiver they do only if the
last four that were read are a preamble. -/
def TypesReset (line : List RxEvent) : Prop :=
  ∀ passes b rest, receiver.machine.run ⟨0, line⟩ passes = ⟨4, .byte b :: rest⟩ →
    (¬ KnownType b → receivedBytes rest = []) ∧
      (receiver = ask → b = msgTypeKeyIdOnly →
        ∀ f rest', readKeyIdOnly rest = (.frame f, rest') →
          receivedBytes rest' = [] ∨
            preamble ++ receivedBytes rest' <:+ receivedBytes line)

variable {receiver} in
/-- If a pass on a type leaves the state at four, the next byte is taken for a type
as well. -/
theorem TypesBehindPreamble.next {line : List RxEvent}
    (h : receiver.TypesBehindPreamble line) {passes : List Unit} {b : UInt8}
    {rest : List RxEvent}
    (hrun : receiver.machine.run ⟨0, line⟩ passes = ⟨4, .byte b :: rest⟩)
    (hnext : receiver.next (dispatchType b rest).1 = 4) :
    receivedBytes (dispatchType b rest).2 = [] ∨
      preamble ++ receivedBytes (dispatchType b rest).2 <:+ receivedBytes line := by
  cases hbytes : receivedBytes (dispatchType b rest).2 with
  | nil => exact Or.inl rfl
  | cons c bytes =>
      right
      obtain ⟨idles, reports, rest', hruns, -, rfl⟩ :=
        receiver.runs_hunt (k := 4) [] (fun i hi => absurd hi (Nat.not_lt_zero i)) hbytes
      have htype := step_of_iter (receiver.iter_type b rest)
      rw [hnext] at htype
      refine h (passes ++ () :: idles) c rest' ?_
      rw [Machine.run_append, hrun, Machine.run_cons, htype]
      exact hruns.run

/-- Two preambles cannot end one byte apart. -/
theorem preamble_not_shifted {b : UInt8} {bytes stream : List UInt8}
    (h : preamble ++ b :: bytes <:+ stream) : ¬ preamble ++ bytes <:+ stream := by
  intro hshifted
  have hle : (preamble ++ bytes).length ≤ (preamble ++ b :: bytes).length := by
    simp only [List.length_append, List.length_cons]
    omega
  obtain ⟨t, ht⟩ := List.suffix_of_suffix_length_le hshifted h hle
  have hsplit : t ++ preamble = preamble ++ [b] := by
    rw [← List.append_assoc, List.append_cons preamble b bytes] at ht
    exact List.append_cancel_right ht
  obtain ⟨x, rfl⟩ : ∃ x, t = [x] := by
    rw [← List.length_eq_one_iff]
    have hlength := congrArg List.length hsplit
    simp only [List.length_append, List.length_singleton] at hlength
    omega
  have hsecond : some preambleByte1 = some preambleByte2 :=
    congrArg (fun l : List UInt8 => l[1]?) hsplit
  exact absurd hsecond (by decide)

variable {receiver} in
theorem typesReset_of_behindPreamble {line : List RxEvent}
    (h : receiver.TypesBehindPreamble line) : receiver.TypesReset line := by
  intro passes b rest hrun
  refine ⟨?_, ?_⟩
  · intro hunknown
    have hread := dispatchType_of_unknown hunknown rest
    have hnext := h.next hrun (by rw [hread]; cases receiver <;> rfl)
    rw [hread] at hnext
    rcases hnext with hnil | hsuffix
    · exact hnil
    · exact absurd hsuffix (preamble_not_shifted (h passes b rest hrun))
  · rintro rfl rfl f rest' hread
    obtain ⟨payload, hok, -, -, rfl, -, -, -⟩ := readShort_sound hread
    have hdispatch : dispatchType msgTypeKeyIdOnly rest =
        (.frame (.keyIdOnly payload (of_decide_eq_true hok)), rest') := hread
    have hnext := h.next hrun (by rw [hdispatch]; rfl)
    rw [hdispatch] at hnext
    exact hnext

/-- A pass on a type only leaves the state at four in the two ways that `TypesReset`
speaks of. -/
theorem next_eq_four {b : UInt8} {line : List RxEvent}
    (h : receiver.next (dispatchType b line).1 = 4) :
    ¬ KnownType b ∨ (receiver = ask ∧ b = msgTypeKeyIdOnly ∧
      ∃ f, (readKeyIdOnly line).1 = .frame f) := by
  by_cases hknown : KnownType b
  · right
    cases hreport : (dispatchType b line).1 with
    | unknownType dbg =>
        exact absurd hreport (dispatchType_ne_unknownType hknown line dbg)
    | frame f =>
        rw [hreport] at h
        have hread : dispatchType b line = (.frame f, (dispatchType b line).2) :=
          Prod.ext hreport rfl
        have hb := (dispatchType_sound hread).1
        cases receiver with
        | flash => cases h
        | ask =>
            cases f with
            | keyIdOnly payload hlen =>
                subst hb
                exact ⟨rfl, rfl, _, hreport⟩
            | sstHs2 hs2Payload => cases h
            | data t nonce ctext tag => cases h
    | _ =>
        rw [hreport] at h
        cases receiver <;> cases h
  · exact Or.inl hknown

/-- What is still on the line follows the bytes that the state has counted, or
nothing is. -/
def Aligned (stream : List UInt8) (u : Uart) : Prop :=
  u.uartState ≤ 4 ∧
    (preamble.take u.uartState ++ receivedBytes u.line <:+ stream ∨
      receivedBytes u.line = [])

variable {receiver} in
theorem Aligned.pass {stream : List UInt8} {u u' : Uart} {r : UartReport}
    (h : Aligned stream u) (hpass : receiver.Pass u r u')
    (htype : ∀ b line, u = ⟨4, .byte b :: line⟩ →
      receiver.next (dispatchType b line).1 = 4 →
      receivedBytes (dispatchType b line).2 = [] ∨
        preamble ++ receivedBytes (dispatchType b line).2 <:+ stream) :
    Aligned stream u' := by
  obtain ⟨hstate, hline⟩ := h
  refine ⟨(hpass.budget hstate).1, ?_⟩
  cases hpass with
  | poll k hsuffix hbytes =>
      simp only at hline ⊢
      rw [hbytes]
      exact hline
  | @hunt k hk b line =>
      left
      have hcounted : preamble.take k ++ b :: receivedBytes line <:+ stream := by
        rcases hline with hline | hnil
        · exact hline
        · cases hnil
      obtain ⟨gap, hgap⟩ :=
        take_strictStep_suffix (List.suffix_refl (preamble.take k)) b
      rw [List.append_cons, ← hgap, List.append_assoc] at hcounted
      exact (List.suffix_append _ _).trans hcounted
  | type b line =>
      have hcounted : preamble ++ b :: receivedBytes line <:+ stream := by
        rcases hline with hline | hnil
        · exact hline
        · cases hnil
      rcases receiver.next_eq (dispatchType b line).1 with hnext | hnext
      · left
        obtain ⟨taken, htaken⟩ := suffix_dispatchType b line
        have hbytes := congrArg receivedBytes htaken
        rw [receivedBytes_append] at hbytes
        rw [← hbytes, List.append_cons, ← List.append_assoc] at hcounted
        rw [hnext]
        exact (List.suffix_append _ _).trans hcounted
      · rw [hnext]
        exact (htype b line rfl hnext).symm

theorem behindPreamble_of_typesReset {line : List RxEvent}
    (h : receiver.TypesReset line) : receiver.TypesBehindPreamble line := by
  have haligned (passes : List Unit) :
      Aligned (receivedBytes line) (receiver.machine.run ⟨0, line⟩ passes) := by
    induction passes using List.reverseRecOn with
    | nil => exact ⟨Nat.zero_le 4, Or.inl (List.suffix_refl _)⟩
    | append_singleton passes pass ih =>
        rw [Machine.run_append]
        refine ih.pass (receiver.pass_iter ih.1) ?_
        intro b rest hrun hnext
        obtain ⟨hunknown, hkeyId⟩ := h passes b rest hrun
        rcases receiver.next_eq_four hnext with hb | ⟨rfl, rfl, f, hframe⟩
        · left
          rw [dispatchType_of_unknown hb]
          exact hunknown hb
        · exact hkeyId rfl rfl f _ (Prod.ext hframe rfl)
  intro passes b rest hrun
  obtain ⟨-, hbehind⟩ := haligned passes
  rw [hrun] at hbehind
  rcases hbehind with hbehind | hnil
  · exact hbehind
  · cases hnil

/-- A frame behind noise is handed on exactly if the noise leaves no start of a preamble
open; and types are only read behind preambles exactly if the dispatch is never left
without a reset while bytes are still to come. -/
theorem resynchronises_iff :
    (∀ (g : List UInt8) (f : LifiFrame) (line : List RxEvent) (rest : List UInt8),
      ¬ preamble <:+: g → Carries line (g ++ f.bytes ++ rest) →
        (receiver.Hands line f.received rest ↔ Broken preamble g)) ∧
      ∀ line : List RxEvent,
        receiver.TypesBehindPreamble line ↔ receiver.TypesReset line := by
  refine ⟨?_, ?_⟩
  · intro g f line rest hg h
    exact receiver.hands_iff hg f h
  · intro line
    exact ⟨typesReset_of_behindPreamble, receiver.behindPreamble_of_typesReset⟩

/-- A lone first byte of a preamble hides the frame behind it; behind an unknown type,
and in ask_receiver behind a key id, any byte is taken for a type. -/
theorem stray_preamble_byte_hides_frame :
    ¬ preamble <:+: [preambleByte1] ∧
      Carries (steady ([preambleByte1] ++ sendKeyIdOnly (Bytes.zero 8)))
        ([preambleByte1] ++ (LifiFrame.keyIdOnly (Bytes.zero 8)).bytes ++ []) ∧
      ¬ flash.Hands (steady ([preambleByte1] ++ sendKeyIdOnly (Bytes.zero 8)))
        (LifiFrame.keyIdOnly (Bytes.zero 8)).received [] ∧
      ¬ ask.Hands (steady ([preambleByte1] ++ sendKeyIdOnly (Bytes.zero 8)))
        (LifiFrame.keyIdOnly (Bytes.zero 8)).received [] ∧
      ¬ flash.TypesBehindPreamble (steady (preamble ++ [0x00, msgTypeFile])) ∧
      ¬ ask.TypesBehindPreamble
        (steady (sendKeyIdOnly (Bytes.zero 8) ++ [msgTypeFile])) := by
  have hnoise : ¬ preamble <:+: [preambleByte1] := by decide
  have hline : Carries (steady ([preambleByte1] ++ sendKeyIdOnly (Bytes.zero 8)))
      ([preambleByte1] ++ (LifiFrame.keyIdOnly (Bytes.zero 8)).bytes ++ []) :=
    carries_steady _
  have hopen : ¬ Broken preamble [preambleByte1] := by
    rw [← strictHunt_eq_zero_iff hnoise]
    decide
  refine ⟨hnoise, hline, ?_, ?_, ?_, ?_⟩
  · rw [hands_iff _ hnoise _ hline]
    exact hopen
  · rw [hands_iff _ hnoise _ hline]
    exact hopen
  · intro h
    have hbehind := h (List.replicate 5 ()) msgTypeFile [] rfl
    revert hbehind
    decide
  · intro h
    have hbehind := h (List.replicate 5 ()) msgTypeFile [] (by decide +kernel)
    revert hbehind
    decide +kernel

/-- A broken start of a preamble hides nothing. -/
theorem resynchronises_iff_brokenStart :
    ask.Hands (steady ([preambleByte1, 0x00] ++ sendKeyIdOnly (Bytes.zero 8)))
      (LifiFrame.keyIdOnly (Bytes.zero 8)).received [] := by
  have hbroken : Broken preamble [preambleByte1, 0x00] := by
    refine ⟨[[preambleByte1, 0x00]], ?_, rfl⟩
    rw [List.forall_mem_singleton]
    exact ⟨1, by decide, 0x00, by decide, rfl⟩
  exact ((resynchronises_iff ask).1 [preambleByte1, 0x00] (.keyIdOnly (Bytes.zero 8)) _ []
    (by decide) (carries_steady _)).mpr hbroken

end OtherReceiver

end LifiAuth
