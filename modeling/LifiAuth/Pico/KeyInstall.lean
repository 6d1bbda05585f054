import LifiAuth.Pico.Drain
import LifiAuth.Pico.KeyStore
import LifiAuth.Support.Hunt

/-!
# Keys that come over uart1

The parser of uart1 installs a key only where it has read the preamble, the type of
a KEY frame and the fields without a timeout, and then the variables, the copy in RAM
and the current slot all get that key.
-/

namespace LifiAuth

open Support

variable (m : Mbedtls) (hse : HeatshrinkEncoder)

/-! ## What the parser has read -/

theorem picoByte_hunt {k : ℕ} (hk : k < preamble.length) (b : UInt8)
    (line : List RxEvent) :
    picoByte k b line = (.quiet, ⟨huntStep preamble k b, line⟩) := by
  have hcases : k = 0 ∨ k = 1 ∨ k = 2 ∨ k = 3 := by
    have hlen : preamble.length = 4 := rfl
    omega
  rcases hcases with rfl | rfl | rfl | rfl
  all_goals simp [picoByte, huntStep, preamble, eq_comm]

/-- What one look does, by what is next on the line. -/
inductive PicoLook : PicoUart → PicoReport × PicoUart → Prop where
  | done (k : ℕ) : PicoLook ⟨k, []⟩ (.quiet, ⟨k, []⟩)
  | gap (k : ℕ) {e : RxEvent} (he : e.isByte = false) (line : List RxEvent) :
      PicoLook ⟨k, e :: line⟩ (.quiet, ⟨k, line⟩)
  | hunt {k : ℕ} (hk : k < preamble.length) (b : UInt8) (line : List RxEvent) :
      PicoLook ⟨k, .byte b :: line⟩ (.quiet, ⟨huntStep preamble k b, line⟩)
  | frame (b : UInt8) (line : List RxEvent) :
      PicoLook ⟨preamble.length, .byte b :: line⟩
        ((picoReadFrame b line).1, ⟨0, (picoReadFrame b line).2⟩)

theorem picoLook_picoUartIter {u : PicoUart}
    (hu : u.challengeState ≤ preamble.length) : PicoLook u (picoUartIter u) := by
  obtain ⟨k, line⟩ := u
  cases line with
  | nil => exact .done k
  | cons e line =>
      cases e with
      | idle => exact .gap k rfl line
      | timeout => exact .gap k rfl line
      | byte b =>
          rcases Nat.lt_or_eq_of_le (show k ≤ preamble.length from hu) with hk | hk
          · have hiter : picoUartIter ⟨k, .byte b :: line⟩ = _ :=
              picoByte_hunt hk b line
            rw [hiter]
            exact .hunt hk b line
          · rw [hk]
            exact .frame b line

/-- The parser has read `before`, and its state counts the bytes of the preamble at
the end of that. -/
structure PicoUart.HasRead (line before : List RxEvent) (u : PicoUart) : Prop where
  split : line = before ++ u.line
  state_le : u.challengeState ≤ preamble.length
  matched : preamble.take u.challengeState <:+ receivedBytes before

theorem hasRead_start (line : List RxEvent) :
    PicoUart.HasRead line [] ⟨0, line⟩ :=
  ⟨rfl, Nat.zero_le _, List.nil_suffix⟩

/-- One look reads `window` more. -/
theorem PicoUart.HasRead.look {line before : List RxEvent} {u : PicoUart}
    (h : u.HasRead line before) :
    ∃ window, u.line = window ++ (picoUartIter u).2.line ∧
      (picoUartIter u).2.HasRead line (before ++ window) := by
  obtain ⟨window, hwindow⟩ := suffix_picoUartIter u
  refine ⟨window, hwindow.symm, ?_⟩
  have hsplit : line = before ++ window ++ (picoUartIter u).2.line := by
    rw [List.append_assoc, hwindow]
    exact h.split
  have hmatched := h.matched
  have hlook := picoLook_picoUartIter h.state_le
  generalize picoUartIter u = next at hlook hwindow hsplit ⊢
  cases hlook with
  | done k =>
      obtain rfl : window = [] := List.append_left_eq_self.mp hwindow
      exact ⟨hsplit, h.state_le, by simpa using hmatched⟩
  | @gap k e he rest =>
      obtain rfl : window = [e] := List.append_cancel_right hwindow
      refine ⟨hsplit, h.state_le, ?_⟩
      have hnone : receivedBytes [e] = [] := by
        cases e with
        | byte b => cases he
        | idle => rfl
        | timeout => rfl
      rw [receivedBytes_append, hnone, List.append_nil]
      exact hmatched
  | @hunt k hk b rest =>
      obtain rfl : window = [.byte b] := List.append_cancel_right hwindow
      refine ⟨hsplit, huntStep_le_length, ?_⟩
      rw [receivedBytes_append]
      exact take_huntStep_suffix hmatched b
  | frame b rest => exact ⟨hsplit, Nat.zero_le _, List.nil_suffix⟩

/-! ## A KEY frame without a timeout -/

/-- The bytes of a KEY frame after its preamble; the length field is not looked at. -/
def KeyWindow (window : List RxEvent) (id : Bytes 8) (key : Bytes 16)
    (macKey : Bytes 32) : Prop :=
  ∃ len : Bytes 2, Carries window (msgTypeKey :: (len.toList ++
    (id.toList ++ (key.toList ++ macKey.toList))))

/-- The four reads take the fields without a timeout. -/
theorem keyWindow_of_readKey {line : List RxEvent} {id : Bytes 8} {key : Bytes 16}
    {macKey : Bytes 32} (h : (readKey line).1 = .key id key macKey) :
    ∃ window, line = window ++ (readKey line).2 ∧
      KeyWindow (.byte msgTypeKey :: window) id key macKey := by
  obtain ⟨len, line₁, line₂, line₃, hlen, hid, hkey, hmac⟩ :=
    readKey_eq_key (Prod.ext h rfl : readKey line = (_, (readKey line).2))
  obtain ⟨window₁, rfl, h₁⟩ := carries_of_readExact hlen
  obtain ⟨window₂, rfl, h₂⟩ := carries_of_readExact hid
  obtain ⟨window₃, rfl, h₃⟩ := carries_of_readExact hkey
  obtain ⟨window₄, hline₃, h₄⟩ := carries_of_readExact hmac
  refine ⟨window₁ ++ (window₂ ++ (window₃ ++ window₄)), ?_, len,
    .byte _ (h₁.append (h₂.append (h₃.append h₄)))⟩
  rw [List.append_assoc, List.append_assoc, List.append_assoc, ← hline₃]

/-- And what they take without a timeout is the key. -/
theorem readKey_of_keyWindow {window : List RxEvent} {id : Bytes 8} {key : Bytes 16}
    {macKey : Bytes 32} (h : KeyWindow (.byte msgTypeKey :: window) id key macKey)
    (rest : List RxEvent) : (readKey (window ++ rest)).1 = .key id key macKey := by
  obtain ⟨len, h⟩ := h
  cases h with
  | byte _ h =>
      obtain ⟨window₁, hlen, h⟩ := readExact_append_of_carries len h rest
      obtain ⟨window₂, hid, h⟩ := readExact_append_of_carries id h rest
      obtain ⟨window₃, hkey, h⟩ := readExact_append_of_carries key h rest
      rw [← List.append_nil macKey.toList] at h
      obtain ⟨window₄, hmac, -⟩ := readExact_append_of_carries macKey h rest
      simp only [readKey, hlen, hid, hkey, hmac]

theorem not_keyWindow_nil (id : Bytes 8) (key : Bytes 16) (macKey : Bytes 32) :
    ¬ KeyWindow [] id key macKey := by
  rintro ⟨len, h⟩
  cases h

/-- A single event is no KEY frame. -/
theorem not_keyWindow_singleton (e : RxEvent) (id : Bytes 8) (key : Bytes 16)
    (macKey : Bytes 32) : ¬ KeyWindow [e] id key macKey := by
  rintro ⟨len, h⟩
  cases h with
  | byte _ h =>
      have hlen := congrArg List.length h.receivedBytes_eq
      simp at hlen
  | idle h => cases h

/-- What one look reads is a whole KEY frame without a timeout exactly if it reports
that key. -/
theorem key_reported_iff {u : PicoUart} (hu : u.challengeState ≤ preamble.length)
    {window : List RxEvent} (hwindow : u.line = window ++ (picoUartIter u).2.line)
    (id : Bytes 8) (key : Bytes 16) (macKey : Bytes 32) :
    (picoUartIter u).1 = .key id key macKey ↔ KeyWindow window id key macKey := by
  have hlook := picoLook_picoUartIter hu
  generalize picoUartIter u = next at hlook hwindow ⊢
  cases hlook with
  | done k =>
      obtain rfl : window = [] := List.append_left_eq_self.mp hwindow.symm
      exact iff_of_false PicoReport.noConfusion (not_keyWindow_nil id key macKey)
  | @gap k e he rest =>
      obtain rfl : window = [e] := (List.append_cancel_right hwindow).symm
      exact iff_of_false PicoReport.noConfusion (not_keyWindow_singleton e id key macKey)
  | @hunt k hk b rest =>
      obtain rfl : window = [.byte b] := (List.append_cancel_right hwindow).symm
      exact iff_of_false PicoReport.noConfusion (not_keyWindow_singleton _ id key macKey)
  | frame b rest =>
      constructor
      · intro hreport
        obtain rfl := type_of_key hreport
        obtain ⟨window', hrest, hkey⟩ := keyWindow_of_readKey hreport
        have hcancel : .byte msgTypeKey :: window' = window := by
          have hboth : .byte msgTypeKey :: window' ++ (readKey rest).2 =
              window ++ (readKey rest).2 := by
            rw [List.cons_append, ← hrest]
            exact hwindow
          exact List.append_cancel_right hboth
        rw [← hcancel]
        exact hkey
      · intro hkey
        cases window with
        | nil => exact absurd hkey (not_keyWindow_nil id key macKey)
        | cons e window =>
            obtain ⟨rfl, hrest⟩ := List.cons.inj hwindow
            have hrest : rest = window ++ (picoReadFrame b rest).2 := hrest
            obtain ⟨len, hcarries⟩ := hkey
            cases hcarries with
            | byte _ hcarries =>
                have hread := readKey_of_keyWindow ⟨len, .byte _ hcarries⟩
                  (picoReadFrame msgTypeKey rest).2
                rw [← hrest] at hread
                exact hread

/-- A key is only reported where the preamble is complete. -/
theorem challengeState_of_key {u : PicoUart}
    (hu : u.challengeState ≤ preamble.length) {id : Bytes 8} {key : Bytes 16}
    {macKey : Bytes 32} (h : (picoUartIter u).1 = .key id key macKey) :
    u.challengeState = preamble.length := by
  have hlook := picoLook_picoUartIter hu
  generalize picoUartIter u = next at hlook h
  cases hlook with
  | done k => cases h
  | gap k he rest => cases h
  | hunt hk b rest => cases h
  | frame b rest => rfl

/-! ## What a look does to the key -/

/-- The key in use, its copy in RAM and the flash are as before. -/
structure SameKey (p p' : Pico) : Prop where
  triple : (p'.sessionKeyId, p'.sessionKey, p'.sessionMacKey) =
    (p.sessionKeyId, p.sessionKey, p.sessionMacKey)
  keyram : p'.keyram = p.keyram
  currentSlot : p'.currentSlot = p.currentSlot
  flash : p'.flash = p.flash

/-- The variables, the copy in RAM and the current slot, which is still the same, hold
this key; the last two have no place for the MAC key. -/
structure KeyInstalled (id : Bytes 8) (key : Bytes 16) (macKey : Bytes 32)
    (p p' : Pico) : Prop where
  triple : (p'.sessionKeyId, p'.sessionKey, p'.sessionMacKey) = (id, key, macKey)
  keyram : p'.keyram = ⟨id, key, true⟩
  currentSlot : p'.currentSlot = p.currentSlot
  stored : picoReadKeyPairFromSlot m p'.flash p'.currentSlot = some (id, key)

section

variable {m} {env : PicoEnv}

theorem sameKey_refl (p : Pico) : SameKey p p :=
  ⟨rfl, rfl, rfl, rfl⟩

theorem keyInstalled_handleKeyFrame (id : Bytes 8) (key : Bytes 16)
    (macKey : Bytes 32) (p : Pico) :
    KeyInstalled m id key macKey p (handleKeyFrame m env id key macKey p).1 := by
  have hstore := keyStore_handleKeyFrame env (id, key) macKey p (m := m)
  have hinit (q : Pico) : (picoNonceInit env q).1.keyram = q.keyram ∧
      (picoNonceInit env q).1.currentSlot = q.currentSlot := by
    rw [picoNonceInit]
    split
    · exact ⟨rfl, rfl⟩
    · exact ⟨rfl, rfl⟩
  refine ⟨congrArg (fun k => (k.keyId, k.key, k.macKey)) hstore, (hinit _).1,
    (hinit _).2, ?_⟩
  have hslot : (handleKeyFrame m env id key macKey p).1.currentSlot = p.currentSlot :=
    (hinit _).2
  have hstored := congrFun (congrArg KeyStore.stored hstore) p.currentSlot
  rw [hslot]
  exact hstored.trans (Function.update_self ..)

/-- Every other report leaves the key alone. -/
theorem sameKey_handlePicoReport {r : PicoReport}
    (hr : ∀ id key macKey, r ≠ .key id key macKey) (p : Pico) :
    SameKey p (handlePicoReport m env r p).1 := by
  cases r with
  | hs1 payload =>
      simp only [handlePicoReport]
      rcases handleHs1_cases m env payload p with hdrop | ⟨_, _, -, -, hanswer⟩
      · rw [hdrop]
        exact sameKey_refl p
      · rw [hanswer]
        exact ⟨rfl, rfl, rfl, rfl⟩
  | hs3 payload =>
      simp only [handlePicoReport]
      rcases handleHs3_cases m payload p with hforgot | ⟨_, -, -, haccept⟩
      · rw [hforgot]
        exact ⟨rfl, rfl, rfl, rfl⟩
      · rw [haccept]
        exact ⟨rfl, rfl, rfl, rfl⟩
  | key id key macKey => exact absurd rfl (hr id key macKey)
  | _ => exact sameKey_refl p

end

/-! ## The main loop -/

/-- The main loop: looks at uart1, and between them lines from the USB host. -/
def lifiLoop : Machine (Pico × PicoUart) (PicoEnv × Option (List UInt8)) PicoOut where
  step s e :=
    match e.2 with
    | none => (lifiDrain m).step s e.1
    | some text =>
        (((handleLine m hse e.1 text s.1).1, s.2), (handleLine m hse e.1 text s.1).2)

theorem hasRead_run {line before : List RxEvent} {s : Pico × PicoUart}
    (h : s.2.HasRead line before) (es : List (PicoEnv × Option (List UInt8))) :
    ∃ before', ((lifiLoop m hse).run s es).2.HasRead line before' := by
  induction es generalizing s before with
  | nil => exact ⟨before, h⟩
  | cons e es ih =>
      obtain ⟨env, text⟩ := e
      cases text with
      | none =>
          obtain ⟨window, -, hnext⟩ := h.look
          exact ih (s := ((lifiLoop m hse).step s (env, none)).1) hnext
      | some text =>
          exact ih (s := ((lifiLoop m hse).step s (env, some text)).1) h

/-- Whatever has come over uart1 and from the USB host before, a look at uart1
either reads a whole KEY frame without a timeout, right after the preamble, and then
all copies of the key are that of the frame, or it leaves all of them alone. -/
theorem key_installed_atomically (p : Pico) (line : List RxEvent)
    (es : List (PicoEnv × Option (List UInt8))) (env : PicoEnv) :
    let s := (lifiLoop m hse).run (p, ⟨0, line⟩) es
    let s' := ((lifiDrain m).step s env).1
    ∃ before window, line = before ++ s.2.line ∧ s.2.line = window ++ s'.2.line ∧
      ((∃ id key macKey, preamble <:+ receivedBytes before ∧
          KeyWindow window id key macKey ∧ KeyInstalled m id key macKey s.1 s'.1) ∨
        (∀ id key macKey, ¬ KeyWindow window id key macKey) ∧ SameKey s.1 s'.1) := by
  intro s s'
  obtain ⟨before, hread⟩ := hasRead_run m hse (s := (p, ⟨0, line⟩))
    (hasRead_start line) es
  obtain ⟨window, hwindow, hnext⟩ := hread.look
  refine ⟨before, window, hread.split, hwindow, ?_⟩
  by_cases hkey : ∃ id key macKey, (picoUartIter s.2).1 = .key id key macKey
  · obtain ⟨id, key, macKey, hreport⟩ := hkey
    refine Or.inl ⟨id, key, macKey, ?_, ?_, ?_⟩
    · have hmatched := hread.matched
      rwa [challengeState_of_key hread.state_le hreport, List.take_length] at hmatched
    · exact (key_reported_iff hread.state_le hwindow id key macKey).mp hreport
    · have hs' : s'.1 = (handlePicoReport m env (picoUartIter s.2).1 s.1).1 := rfl
      rw [hs', hreport]
      exact keyInstalled_handleKeyFrame id key macKey s.1
  · refine Or.inr ⟨?_, sameKey_handlePicoReport ?_ s.1⟩
    · intro id key macKey hwin
      exact hkey ⟨id, key, macKey,
        (key_reported_iff hread.state_le hwindow id key macKey).mpr hwin⟩
    · intro id key macKey hreport
      exact hkey ⟨id, key, macKey, hreport⟩

end LifiAuth
