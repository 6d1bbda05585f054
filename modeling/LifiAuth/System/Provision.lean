import LifiAuth.Dash.State
import LifiAuth.Pico.Console
import LifiAuth.Pico.KeyCoherence

/-!
# Provisioning over USB

`pico_provisioner` writes a KEY frame to the USB port of the sender, which edits it
as text: the parser of KEY frames only reads uart1.
-/

namespace LifiAuth

open Support

variable (m : Mbedtls) (hse : HeatshrinkEncoder)

/-- What `pico_provisioner` makes of a session key. -/
structure ProvisionerOut where
  /-- The three values in `session_key.json`. -/
  sessionKeyJson : Bytes 8 × Bytes 16 × Bytes 32
  /-- The bytes of its four writes, with the ones of the key marked. -/
  serial : List Marked

/-- The bytes of the key, as they are written. -/
def provisionedBytes (k : SessionKey) : List UInt8 :=
  k.keyId.toList ++ k.aesKey.toList ++ k.macKey.toList

/-- The seven bytes before the key. -/
def frameHeader : List Marked :=
  (txHeader msgTypeKey keyFrameLen).map (⟨·, false⟩)

/-- The bytes of the key, marked. -/
def markedKey (k : SessionKey) : List Marked :=
  (provisionedBytes k).map (⟨·, true⟩)

/-- `main` of `pico_provisioner`, where every write succeeds. -/
def picoProvisioner (k : SessionKey) : ProvisionerOut where
  sessionKeyJson := (k.keyId, k.aesKey, k.macKey)
  serial := frameHeader ++ markedKey k

/-- Without the marks, they are a KEY frame. -/
theorem serial_picoProvisioner (k : SessionKey) :
    (picoProvisioner k).serial.map Marked.byte =
      keyFrame k.keyId k.aesKey k.macKey := by
  simp [picoProvisioner, frameHeader, markedKey, provisionedBytes, keyFrame,
    keyFrameParts, Function.comp_def]

/-- The sender holds what `session_key.json` holds, and nothing of the key is left
in `message_buffer` or was transmitted as a message. -/
structure Provisioned (k : SessionKey) (s : Pico × Console)
    (es : List (PicoEnv × UsbEvent)) : Prop where
  installed :
    let p := ((usbConsole m hse).run s es).1
    (p.sessionKeyId, p.sessionKey, p.sessionMacKey) =
      (picoProvisioner k).sessionKeyJson
  notLeft : ∀ b ∈ ((usbConsole m hse).run s es).2.messageBuffer, b.fromKey = false
  notSent : ∀ text, .sent text ∈ (usbConsole m hse).trace s es →
    ∀ b ∈ text, b.fromKey = false

/-! ## The MAC key -/

section

variable {m hse}

variable (m hse) in
theorem sessionMacKey_handleLine (env : PicoEnv) (line : List UInt8) (p : Pico) :
    (handleLine m hse env line p).1.sessionMacKey = p.sessionMacKey := by
  have hstep := congrArg KeyStore.macKey
    (keyStore_picoStep m hse p (env, .line line))
  refine hstep.trans ?_
  simp only [keyOp]
  split
  · exact (p.keyStore m).macKey_commandOp env _
  · rfl

/-- Only a KEY frame changes the MAC key, and none comes over USB. -/
theorem sessionMacKey_run (s : Pico × Console) (es : List (PicoEnv × UsbEvent)) :
    ((usbConsole m hse).run s es).1.sessionMacKey = s.1.sessionMacKey := by
  induction es generalizing s with
  | nil => rfl
  | cons e es ih =>
      have hstep : ((usbConsole m hse).step s e).1.1.sessionMacKey =
          s.1.sessionMacKey := by
        simp only [usbConsole, consoleStep]
        split
        · rfl
        · next c _ =>
            have hline := sessionMacKey_handleLine m hse e.1
              (c.typed.map Marked.byte) s.1
            simp only [completeLine]
            split
            · exact hline
            · split
              · exact hline
              · exact hline
      exact (ih _).trans hstep

end

/-! ## What is left of the frame -/

theorem length_markedKey (k : SessionKey) : (markedKey k).length = 56 := by
  simp [markedKey, provisionedBytes]

theorem fromKey_markedKey {k : SessionKey} {b : Marked} (hb : b ∈ markedKey k) :
    b.fromKey = true ∧ b.byte ∈ provisionedBytes k := by
  obtain ⟨byte, hbyte, rfl⟩ := List.mem_map.mp hb
  exact ⟨rfl, hbyte⟩

/-- A frame that completes no line leaves something of the key in the buffer exactly
if one of its bytes is typed. -/
theorem clean_iff_of_editsTo (k : SessionKey) {c c' : Console} (hclean : c.Clean)
    {evs : List UsbEvent} (hbytes : usbBytes evs = frameHeader ++ markedKey k)
    (h : EditsTo c (evs ++ [.silence]) c') :
    (∀ b ∈ c'.messageBuffer, b.fromKey = false) ↔
      ∀ b ∈ provisionedBytes k, isTypable b = false := by
  obtain ⟨c₁, hevs, hpause⟩ := h.split
  obtain ⟨hpeek, rfl⟩ : c₁.peeking = none ∧ c' = c₁ := by
    cases hpause with
    | cons hedit hnil =>
        cases hnil
        exact editing_of_silence hedit
  have hheld : c'.held = c'.messageBuffer := by
    rw [Console.held, hpeek, Option.toList_none, List.append_nil]
  constructor
  · intro hleft
    by_contra htyped
    simp only [not_forall, Bool.not_eq_false] at htyped
    obtain ⟨b, hb, htypable⟩ := htyped
    obtain ⟨evs₁, evs₂, rfl, hheader, hkey⟩ := List.filterMap_eq_append_iff.mp hbytes
    obtain ⟨c₀, hevs₁, hevs₂⟩ := hevs.split
    have hheader : usbBytes evs₁ = frameHeader := hheader
    have hkey : usbBytes evs₂ = markedKey k := hkey
    have hshort : c₀.Short := by
      apply Console.short_of_editsTo hevs₁
      · rw [hheader]
        decide
      · rw [hheader]
        exact Or.inr (Or.inr (by decide))
    have hroom : c₀.typed.length + 2 * (usbBytes evs₂).length < msgBufSize := by
      have hlen := hshort.length
      rw [hkey, length_markedKey]
      simp only [msgBufSize] at hlen ⊢
      omega
    obtain ⟨x, hx, hmark⟩ := Console.fromKey_editsTo hevs₂
      (by rw [hkey]; exact fun b hb => (fromKey_markedKey hb).1) hroom
      (by rw [hshort.peeking]; exact fun e he => by cases he)
      (Or.inr ⟨⟨b, true⟩, by rw [hkey]; exact List.mem_map_of_mem hb, htypable⟩)
    rw [hheld] at hx
    rw [hleft x hx] at hmark
    cases hmark
  · intro huntyped
    have hafter : c'.Clean := by
      refine Console.Clean.editsTo hevs hclean ?_
      intro b hb
      rw [hbytes] at hb
      rcases List.mem_append.mp hb with hb | hb
      · obtain ⟨byte, -, rfl⟩ := List.mem_map.mp hb
        exact Or.inl rfl
      · exact Or.inr (huntyped _ (fromKey_markedKey hb).2)
    intro b hb
    exact hafter b (List.mem_append_left _ hb)

/-- A frame without typed key bytes completes no line, if there is room for the `8`
of its header. -/
theorem exists_editsTo_frame {k : SessionKey} {c : Console} (hpeek : c.peeking = none)
    (hroom : c.typed.length + 1 < msgBufSize - 128) {evs : List UsbEvent}
    (hbytes : usbBytes evs = frameHeader ++ markedKey k)
    (huntyped : ∀ b ∈ provisionedBytes k, isTypable b = false) :
    ∃ c', EditsTo c (evs ++ [.silence]) c' := by
  have hkey {b : Marked} (hb : b ∈ markedKey k) :
      isPrintable b.byte = false ∧ isLineEnd b.byte = false := by
    have hb' := huntyped _ (fromKey_markedKey hb).2
    rwa [isTypable, Bool.or_eq_false_iff] at hb'
  have hall : usbBytes (evs ++ [UsbEvent.silence]) = frameHeader ++ markedKey k := by
    rw [← hbytes, usbBytes, List.filterMap_append]
    exact List.append_nil _
  have hheader : frameHeader.countP (isPrintable ·.byte) = 1 := by decide
  have hnone : (markedKey k).countP (isPrintable ·.byte) = 0 := by
    rw [List.countP_eq_zero]
    intro b hb
    rw [(hkey hb).1]
    exact Bool.false_ne_true
  apply Console.exists_editsTo hpeek
  · intro b hb
    rw [hall] at hb
    rcases List.mem_append.mp hb with hb | hb
    · have hends : ∀ b ∈ frameHeader, isLineEnd b.byte = false := by decide
      exact hends b hb
    · exact (hkey hb).2
  · rw [hall, List.countP_append, hheader, hnone]
    exact hroom

/-- The console has nothing of a key yet, and the events bring the frame, with any
pauses. -/
structure FrameArrives (k : SessionKey) (s : Pico × Console)
    (es : List (PicoEnv × UsbEvent)) : Prop where
  clean : s.2.Clean
  bytes : usbBytes (es.map Prod.snd) = (picoProvisioner k).serial

/-- The sender holds what `session_key.json` holds, and no byte of it is typed. -/
def HeldUntyped (k : SessionKey) (p : Pico) : Prop :=
  (p.sessionKeyId, p.sessionKey, p.sessionMacKey) =
      (picoProvisioner k).sessionKeyJson ∧
    ∀ b ∈ provisionedBytes k, isTypable b = false

section

variable {m hse} {k : SessionKey} {s : Pico × Console}
  {es : List (PicoEnv × UsbEvent)}

/-- Where the frame only edits, the sender is provisioned exactly if it was. -/
theorem provisioned_iff_of_editsTo (h : FrameArrives k s es) (env : PicoEnv)
    {c : Console} (hedits : EditsTo s.2 (es.map Prod.snd ++ [.silence]) c) :
    Provisioned m hse k s (es ++ [(env, .silence)]) ↔ HeldUntyped k s.1 := by
  have hleft := clean_iff_of_editsTo k h.clean h.bytes hedits
  have hevs : (es ++ [(env, UsbEvent.silence)]).map Prod.snd =
      es.map Prod.snd ++ [UsbEvent.silence] := List.map_append
  rw [← hevs] at hedits
  have hrun : (usbConsole m hse).run s (es ++ [(env, .silence)]) = (s.1, c) :=
    (run_of_editsTo hedits).1
  have htrace : (usbConsole m hse).trace s (es ++ [(env, .silence)]) = [] :=
    (run_of_editsTo hedits).2
  constructor
  · rintro ⟨hinstalled, hnotLeft, -⟩
    rw [hrun] at hinstalled hnotLeft
    exact ⟨hinstalled, hleft.mp hnotLeft⟩
  · rintro ⟨hholds, huntyped⟩
    refine ⟨?_, ?_, ?_⟩
    · rw [hrun]
      exact hholds
    · rw [hrun]
      exact hleft.mpr huntyped
    · rw [htrace]
      exact fun text htext => absurd htext List.not_mem_nil

/-- After the frame and a pause, the sender is only provisioned if it had the MAC key
before.  It is provisioned if it held the whole key before and no byte of the key is
typed, unless what was typed before the frame becomes a line; and where the frame
completes no line, in no other case. -/
theorem provisioned_iff (h : FrameArrives k s es) (env : PicoEnv) :
    (Provisioned m hse k s (es ++ [(env, .silence)]) →
        s.1.sessionMacKey = k.macKey) ∧
      (s.2.peeking = none → s.2.typed.length + 1 < msgBufSize - 128 →
        HeldUntyped k s.1 → Provisioned m hse k s (es ++ [(env, .silence)])) ∧
      ((∀ text, .line text ∉ (usbConsole m hse).trace s (es ++ [(env, .silence)])) →
        (Provisioned m hse k s (es ++ [(env, .silence)]) ↔ HeldUntyped k s.1)) := by
  refine ⟨?_, ?_, ?_⟩
  · intro hprovisioned
    have hmac := congrArg (fun t => t.2.2) hprovisioned.installed
    exact (sessionMacKey_run s _).symm.trans hmac
  · intro hpeek hroom hheld
    obtain ⟨c, hedits⟩ := exists_editsTo_frame hpeek hroom h.bytes hheld.2
    exact (provisioned_iff_of_editsTo h env hedits).mpr hheld
  · intro hquiet
    obtain ⟨c, hedits⟩ := editsTo_of_no_line hquiet
    rw [List.map_append] at hedits
    exact provisioned_iff_of_editsTo h env hedits

end

/-- The bytes of the frame, one after the other. -/
def usbSteady (k : SessionKey) : List (PicoEnv × UsbEvent) :=
  (picoProvisioner k).serial.map fun b => (.salted, .byte b)

/-- A key whose id is text. -/
def textKey : SessionKey :=
  ⟨List.Vector.replicate 8 0x41, List.Vector.replicate 32 2,
    List.Vector.replicate 32 3⟩

/-- A new sender does not get the key. -/
theorem provisioning_misses_sender :
    FrameArrives textKey (Pico.off Flash.erased, Console.cleared)
        (usbSteady textKey) ∧
      ¬ Provisioned .transparent .idle textKey
        (Pico.off Flash.erased, Console.cleared)
        (usbSteady textKey ++ [(.salted, .silence)]) := by
  constructor
  · constructor
    · intro b hb
      cases hb
    · decide +kernel
  · intro h
    have hinstalled := h.installed
    revert hinstalled
    decide +kernel

/-- A key without a byte of text. -/
def binaryKey : SessionKey :=
  ⟨List.Vector.replicate 8 1, List.Vector.replicate 32 2,
    List.Vector.replicate 32 3⟩

/-- A sender with that key in use. -/
def binaryKeyed : Pico :=
  { Pico.off Flash.erased with
    sessionKeyId := binaryKey.keyId
    sessionKey := binaryKey.aesKey
    sessionMacKey := binaryKey.macKey }

theorem provisioned_again :
    Provisioned .transparent .idle binaryKey (binaryKeyed, Console.cleared)
      (usbSteady binaryKey ++ [(.salted, .silence)]) := by
  have harrives : FrameArrives binaryKey (binaryKeyed, Console.cleared)
      (usbSteady binaryKey) := by
    constructor
    · intro b hb
      cases hb
    · decide +kernel
  refine (provisioned_iff harrives .salted).2.1 rfl ?_ ⟨rfl, ?_⟩
  · decide
  · decide +kernel

end LifiAuth
