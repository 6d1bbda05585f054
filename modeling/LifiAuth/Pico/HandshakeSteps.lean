import LifiAuth.Pico.Handlers

/-!
# What a step of the sender does to the handshake

As long as no key is installed or dropped, the keys stay, and only the two
handshake handlers touch the saved nonce.
-/

namespace LifiAuth

variable (m : Mbedtls) (hse : HeatshrinkEncoder)

/-! ## Silence -/

/-- Neither an answer to a handshake nor its success. -/
def HandshakeSilent (t : List PicoOut) : Prop :=
  ∀ o ∈ t, (∀ macKey e np blob, o ≠ .hs2Sent macKey e np blob) ∧
    ∀ np hs3, o ≠ .mutualAuthOk np hs3

/-- No KEY frame is taken. -/
def TakesNoKey (t : List PicoOut) : Prop :=
  ∀ id key macKey, .keyReceived id key macKey ∉ t

theorem handshakeSilent_nil : HandshakeSilent [] := by
  intro o ho
  exact absurd ho List.not_mem_nil

theorem takesNoKey_nil : TakesNoKey [] := by
  intro id key macKey
  exact List.not_mem_nil

theorem handshakeSilent_append (t u : List PicoOut) :
    HandshakeSilent (t ++ u) ↔ HandshakeSilent t ∧ HandshakeSilent u :=
  List.forall_mem_append

/-! ## Events that leave the keys alone -/

/-- The commands that can change the key, apart from `key <hex>`. -/
def keyCommands : List (List UInt8) :=
  [ascii " clear slot A", ascii " clear slot B", ascii " clear slot *",
    ascii " switch slot", ascii " use slot A", ascii " use slot B",
    ascii " new key -f", ascii " new key"]

/-- No KEY frame, no slot or key command, no restart. -/
def keepsKeys : PicoEvent → Bool
  | .uart (.key _ _ _) => false
  | .uart _ => true
  | .line text =>
      !(ascii "CMD:").isPrefixOf text ||
        !(keyCommands.contains (text.drop 4) ||
          (ascii " key ").isPrefixOf (text.drop 4))
  | .boot => false

/-- The key triple and the saved nonce are as before. -/
structure SameHandshake (p p' : Pico) : Prop where
  key : p'.sessionKey = p.sessionKey
  macKey : p'.sessionMacKey = p.sessionMacKey
  keyId : p'.sessionKeyId = p.sessionKeyId
  saved : p'.savedPicoNonce = p.savedPicoNonce

/-- What an event that leaves the keys alone does to the handshake. -/
inductive HandshakeEffect (env : PicoEnv) (ev : PicoEvent) (p : Pico)
    (r : Pico × List PicoOut) : Prop where
  | quiet (same : SameHandshake p r.1) (silent : HandshakeSilent r.2)
      (keyless : TakesNoKey r.2)
  | answered (hs1 : Bytes 72) (entityNonce : Bytes 8) (hs2Blob : Bytes 80)
      (event : ev = .uart (.hs1 hs1))
      (opened : openHs1 m hs1 p = some entityNonce)
      (built : buildHs2 m env.hs2 entityNonce p = some hs2Blob)
      (result : r = ({ p with savedPicoNonce := env.hs2.picoNonce },
        [.hs2Sent p.sessionMacKey entityNonce env.hs2.picoNonce hs2Blob]))
  | forgot (result : r = ({ p with savedPicoNonce := Bytes.zero 8 }, []))
  | authenticated (hs3 : Bytes 80) (plain : Bytes 32)
      (event : ev = .uart (.hs3 hs3))
      (opened : openHs3 m hs3 p = some plain)
      (ok : hs3Ok plain p.savedPicoNonce = true)
      (result : r = ({ p with savedPicoNonce := Bytes.zero 8, led25 := true },
        [.mutualAuthOk p.savedPicoNonce hs3]))

section

variable {m} {env : PicoEnv} {ev : PicoEvent}

theorem handshakeEffect_refl (p : Pico) :
    HandshakeEffect m env ev p (p, []) :=
  .quiet ⟨rfl, rfl, rfl, rfl⟩ handshakeSilent_nil takesNoKey_nil

theorem handshakeEffect_handleHs1 (hs1 : Bytes 72) (p : Pico) :
    HandshakeEffect m env (.uart (.hs1 hs1)) p (handleHs1 m env hs1 p) := by
  rcases handleHs1_cases m env hs1 p with
    hdrop | ⟨entityNonce, hs2Blob, hopen, hbuilt, hanswer⟩
  · rw [hdrop]
    exact handshakeEffect_refl p
  · exact .answered hs1 entityNonce hs2Blob rfl hopen hbuilt hanswer

theorem handshakeEffect_handleHs3 (hs3 : Bytes 80) (p : Pico) :
    HandshakeEffect m env (.uart (.hs3 hs3)) p (handleHs3 m hs3 p) := by
  rcases handleHs3_cases m hs3 p with hforgot | ⟨plain, hopen, hok, haccept⟩
  · exact .forgot hforgot
  · exact .authenticated hs3 plain rfl hopen hok haccept

/-- A command that is not a key command leaves everything but a pending reboot
alone. -/
theorem handleCommands_of_keeps (cmd : List UInt8) (p : Pico)
    (hcmd : cmd ∉ keyCommands) (hkey : ¬ ascii " key " <+: cmd) :
    handleCommands m env cmd p = (false, p) ∨
      handleCommands m env cmd p = (false, { p with rebootPending := true }) := by
  simp only [keyCommands, List.mem_cons, List.not_mem_nil, or_false, not_or]
    at hcmd
  obtain ⟨h1, h2, h3, h4, h5, h6, h7, h8⟩ := hcmd
  rw [handleCommands, if_neg h1, if_neg h2, if_neg h3, if_neg h4, if_neg h5,
    if_neg h6, if_neg h7, if_neg h8, if_neg hkey]
  by_cases hreboot : cmd = ascii " reboot"
  · exact Or.inr (if_pos hreboot)
  · refine Or.inl ?_
    rw [if_neg hreboot]

theorem handshakeEffect_handleCommandLine (cmd : List UInt8) (p : Pico)
    (hcmd : cmd ∉ keyCommands) (hkey : ¬ ascii " key " <+: cmd) :
    HandshakeEffect m env ev p (handleCommandLine m env cmd p) := by
  simp only [handleCommandLine]
  split
  · refine .quiet ⟨rfl, rfl, rfl, rfl⟩ ?_ ?_
    · intro o ho
      rw [List.mem_singleton.mp ho]
      exact ⟨by simp, by simp⟩
    · intro id key macKey h
      cases List.mem_singleton.mp h
  · rcases handleCommands_of_keeps cmd p hcmd hkey with
      heq | heq
    · rw [heq]
      exact handshakeEffect_refl p
    · rw [heq]
      exact .quiet ⟨rfl, rfl, rfl, rfl⟩ handshakeSilent_nil takesNoKey_nil

theorem handshakeSilent_encryptAndSend (t : DataType) (payload : List UInt8)
    (p : Pico) : HandshakeSilent (encryptAndSend m t payload p).2 := by
  rcases encryptAndSend_cases m t payload p with ⟨-, hout⟩ | ⟨_, _, -, hout⟩
  · rw [hout]
    exact List.forall_mem_singleton.mpr ⟨by simp, by simp⟩
  · rw [hout]
    refine List.forall_mem_cons.mpr ⟨⟨by simp, by simp⟩, ?_⟩
    exact List.forall_mem_singleton.mpr ⟨by simp, by simp⟩

theorem handshakeEffect_handleMessageLine (msg : List UInt8) (p : Pico) :
    HandshakeEffect m env ev p (handleMessageLine m hse env msg p) := by
  rcases handleMessageLine_cases m hse env msg p with hdrop | ⟨t, payload, hsend⟩
  · rw [hdrop]
    exact handshakeEffect_refl p
  · rw [hsend]
    refine .quiet ?_ (handshakeSilent_encryptAndSend t payload p) ?_
    · rw [encryptAndSend_fst]
      exact ⟨rfl, rfl, rfl, rfl⟩
    · rcases encryptAndSend_cases m t payload p with ⟨-, hout⟩ | ⟨_, _, -, hout⟩
      · simp [TakesNoKey, hout]
      · simp [TakesNoKey, hout]

end

/-- Every event that leaves the keys alone has one of the four effects. -/
theorem handshakeEffect_picoStep (p : Pico) (env : PicoEnv) (ev : PicoEvent)
    (hkeeps : keepsKeys ev = true) :
    HandshakeEffect m env ev p (picoStep m hse p env ev) := by
  cases ev with
  | uart r =>
      cases r with
      | hs1 payload => exact handshakeEffect_handleHs1 payload p
      | hs3 payload => exact handshakeEffect_handleHs3 payload p
      | key newId newKey newMacKey => exact absurd hkeeps Bool.false_ne_true
      | _ => exact handshakeEffect_refl p
  | line text =>
      simp only [picoStep, handleLine]
      split
      · next hcmd =>
          have hprefix : (ascii "CMD:").isPrefixOf text = true :=
            List.isPrefixOf_iff_prefix.mpr hcmd
          simp only [keepsKeys, hprefix, Bool.not_true, Bool.false_or,
            Bool.not_eq_true', Bool.or_eq_false_iff] at hkeeps
          obtain ⟨hkey, hhex⟩ := hkeeps
          apply handshakeEffect_handleCommandLine
          · simpa using hkey
          · rw [← List.isPrefixOf_iff_prefix, hhex]
            exact Bool.false_ne_true
      · exact handshakeEffect_handleMessageLine hse _ p
  | boot => exact absurd hkeeps Bool.false_ne_true

/-! ## Where a second message comes from -/

theorem handshakeSilent_picoNonceInit (env : PicoEnv) (p : Pico) :
    HandshakeSilent (picoNonceInit env p).2 :=
  forall_mem_picoNonceInit (fun _ => ⟨by simp, by simp⟩) p

theorem handshakeSilent_handleCommandLine (env : PicoEnv) (cmd : List UInt8)
    (p : Pico) : HandshakeSilent (handleCommandLine m env cmd p).2 :=
  forall_mem_handleCommandLine (fun _ => ⟨by simp, by simp⟩) (fun _ => ⟨by simp, by simp⟩)
    cmd p

theorem handshakeSilent_handleMessageLine (env : PicoEnv) (msg : List UInt8)
    (p : Pico) : HandshakeSilent (handleMessageLine m hse env msg p).2 := by
  rcases handleMessageLine_cases m hse env msg p with hdrop | ⟨t, payload, hsend⟩
  · rw [hdrop]
    exact handshakeSilent_nil
  · rw [hsend]
    exact handshakeSilent_encryptAndSend t payload p

theorem handshakeSilent_picoBoot (env : PicoEnv) (flash : Flash) :
    HandshakeSilent (picoBoot m env flash).2 :=
  forall_mem_picoBoot (fun _ => ⟨by simp, by simp⟩) flash

/-- A second message answers a first one that opened. -/
theorem opened_of_hs2Sent {p : Pico} {env : PicoEnv} {ev : PicoEvent}
    {macKey : Bytes 32} {e np : Bytes 8} {hs2 : Bytes 80}
    (ho : .hs2Sent macKey e np hs2 ∈ (picoStep m hse p env ev).2) :
    ∃ hs1, ev = .uart (.hs1 hs1) ∧ openHs1 m hs1 p = some e := by
  have hsilent {t : List PicoOut} (ht : HandshakeSilent t) :
      .hs2Sent macKey e np hs2 ∉ t :=
    fun hmem => (ht _ hmem).1 macKey e np hs2 rfl
  cases ev with
  | uart r =>
      cases r with
      | hs1 hs1 =>
          simp only [picoStep, handlePicoReport] at ho
          rcases handleHs1_cases m env hs1 p with
            hdrop | ⟨entityNonce, hs2Blob, hopen, -, hanswer⟩
          · rw [hdrop] at ho
            cases ho
          · rw [hanswer] at ho
            cases List.mem_singleton.mp ho
            exact ⟨hs1, rfl, hopen⟩
      | hs3 hs3 =>
          simp only [picoStep, handlePicoReport] at ho
          rcases handleHs3_cases m hs3 p with hforgot | ⟨_, -, -, haccept⟩
          · rw [hforgot] at ho
            cases ho
          · rw [haccept] at ho
            cases List.mem_singleton.mp ho
      | key newId newKey newMacKey =>
          rcases List.mem_cons.mp ho with ho | ho
          · cases ho
          · exact absurd ho (hsilent (handshakeSilent_picoNonceInit env _))
      | _ => cases ho
  | line text =>
      simp only [picoStep, handleLine] at ho
      split at ho
      · exact absurd ho (hsilent (handshakeSilent_handleCommandLine m env _ p))
      · exact absurd ho (hsilent (handshakeSilent_handleMessageLine m hse env _ p))
  | boot => exact absurd ho (hsilent (handshakeSilent_picoBoot m env p.flash))

end LifiAuth
