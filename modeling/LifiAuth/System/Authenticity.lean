import LifiAuth.Pico.NonceUnique
import LifiAuth.System.Handshake

/-!
# Authenticity of messages

An adversary on the optical link decides what the receiver parses.  AES-GCM lets
through only what the sender encrypted, so an accepted payload was sent; the frame
type is no input of AES-GCM and is not covered.
-/

namespace LifiAuth

open Support

variable (m : Mbedtls) (hse : HeatshrinkEncoder) (api : SstApi)

/-- Key, nonce, ciphertext and tag of the messages transmitted so far. -/
def transmissions (t : List LinkOut) :
    List (Bytes 16 × Bytes 12 × List UInt8 × Bytes 16) :=
  t.filterMap fun
    | .inl (.dataSent key _ nonce _ ciphertext tag) =>
        some (key, nonce, ciphertext, tag)
    | _ => none

theorem mem_transmissions {t : List LinkOut} {key : Bytes 16} {nonce : Bytes 12}
    {ciphertext : List UInt8} {tag : Bytes 16}
    (h : (key, nonce, ciphertext, tag) ∈ transmissions t) :
    ∃ type plaintext,
      .inl (.dataSent key type nonce plaintext ciphertext tag) ∈ t := by
  obtain ⟨o, ho, heq⟩ := List.mem_filterMap.mp h
  rcases o with o | o
  · cases o with
    | dataSent key' type nonce' plaintext ciphertext' tag' =>
        cases heq
        exact ⟨type, plaintext, ho⟩
    | _ => cases heq
  · cases heq

/-- Nonce, ciphertext and tag of a data frame that the receiver parses. -/
def deliveredData : LinkIn → Option (Bytes 12 × Ctext × Bytes 16)
  | .inr (_, .uart (.frame (.data _ nonce ciphertext tag))) =>
      some (nonce, ciphertext, tag)
  | _ => none

/-- Decryption succeeds only on what was encrypted under that key. -/
def GcmIdeal (t : List LinkOut) (s : Pico × Dash) (i : LinkIn) : Prop :=
  ∀ x ∈ deliveredData i,
    (m.sstDecryptGcm s.2.sKey.aesKey x.1 (Bytes.ofList x.2.1.1) x.2.2).isSome →
      (s.2.sKey.aesKey, x.1, x.2.1.1, x.2.2) ∈ transmissions t

instance (t : List LinkOut) (s : Pico × Dash) (i : LinkIn) :
    Decidable (GcmIdeal m t s i) :=
  inferInstanceAs (Decidable (∀ x ∈ deliveredData i, _))

/-! ## What the sender transmits -/

/-- A transmitted message is an encryption of its plaintext. -/
def Sealed : PicoOut → Prop
  | .dataSent key _ nonce plaintext ciphertext tag =>
      ∃ output, m.sstEncryptGcm key nonce (Bytes.ofList plaintext) =
        some (output, tag) ∧ output.toList = ciphertext
  | _ => True

theorem sealed_encryptAndSend (t : DataType) (payload : List UInt8) (p : Pico) :
    ∀ o ∈ (encryptAndSend m t payload p).2, Sealed m o := by
  rcases encryptAndSend_cases m t payload p with
    ⟨-, hout⟩ | ⟨ciphertext, tag, hcrypt, hout⟩
  · rw [hout]
    exact List.forall_mem_singleton.mpr trivial
  · rw [hout]
    refine List.forall_mem_cons.mpr ⟨trivial, ?_⟩
    exact List.forall_mem_singleton.mpr ⟨ciphertext, hcrypt, rfl⟩

theorem sealed_picoStep (p : Pico) (env : PicoEnv) (ev : PicoEvent) :
    ∀ o ∈ (picoStep m hse p env ev).2, Sealed m o := by
  cases ev with
  | uart r =>
      exact forall_mem_handlePicoReport (fun _ => trivial) (fun _ _ _ _ => trivial)
        (fun _ _ => trivial) (fun _ _ _ => trivial) r p
  | line text =>
      simp only [picoStep, handleLine]
      split
      · exact forall_mem_handleCommandLine (fun _ => trivial) (fun _ => trivial) _ p
      · rcases handleMessageLine_cases m hse env text p with
          hdrop | ⟨t, payload, hsend⟩
        · rw [hdrop]
          exact List.forall_mem_nil _
        · rw [hsend]
          exact sealed_encryptAndSend m t payload p
  | boot => exact forall_mem_picoBoot (fun _ => trivial) p.flash

/-! ## What the receiver accepts -/

variable {m hse api}

/-- Whatever the adversary makes of the optical link, an accepted payload was
transmitted by the sender before, under that key and with that nonce, ciphertext
and tag. -/
theorem accepted_was_transmitted (hm : m.Lawful) {s₀ s : Pico × Dash}
    {t : List LinkOut}
    (h : (lifiLink m hse api).Reach (GcmIdeal m) s₀ t s)
    {before after : List LinkOut} {key : Bytes 16} {type : DataType}
    {nonce : Bytes 12} {ciphertext : Ctext} {tag : Bytes 16}
    {decrypted : List UInt8}
    (ht : t = before ++
      .inr (.accepted key type nonce ciphertext tag decrypted) :: after) :
    ∃ sentType, .inl (.dataSent key sentType nonce decrypted ciphertext.1 tag) ∈
      before := by
  obtain ⟨t₁, s₁, i, pre, post, hreach, hideal, hout, rfl⟩ := h.emitted ht
  obtain ⟨env, ev, rfl, hmem⟩ :=
    inr_mem_lifiLink (hout ▸ List.mem_append_right _ List.mem_cons_self)
  obtain ⟨rfl, rfl, output, hdec, rfl⟩ :=
    explained_dashStep m api s₁.2 env ev _ hmem
  have hsent := hideal (nonce, ciphertext, tag) rfl (by rw [hdec]; rfl)
  obtain ⟨sentType, plaintext, ho⟩ := mem_transmissions hsent
  obtain ⟨t₂, s₂, i, -, -, hout₂⟩ := hreach.emitted_of_mem ho
  obtain ⟨env₂, ev₂, rfl, hmem₂⟩ := inl_mem_lifiLink hout₂
  obtain ⟨sealedText, hcrypt, hlist⟩ :=
    sealed_picoStep m hse s₂.1 env₂ ev₂ _ hmem₂
  have hplain : output.toList = plaintext := by
    obtain ⟨c, hc⟩ := ciphertext
    obtain rfl : sealedText.toList = c := hlist
    obtain ⟨plain, hdec', hsame⟩ := hm.gcm_decrypt_toList hcrypt
    rw [Option.some.inj (hdec.symm.trans hdec'), hsame]
    rfl
  rw [hplain]
  exact ⟨sentType, List.mem_append_left _ ho⟩

/-! ## A message taken for a file -/

def firstNonce : Bytes 12 := gcmNonce (List.Vector.replicate 8 1) 0

/-- The transmission of `hello`, framed again with the other type. -/
def helloAsFile : Frame :=
  .data .file firstNonce ⟨ascii "hello", by decide⟩ sharedKey.aesKey

def helloRun : List LinkIn :=
  [.inl (.salted, .line (ascii "hello")),
    .inr (.bare, .uart (.frame helloAsFile))]

theorem trace_helloRun : openLink.trace bothKeyed helloRun =
    [.inl (.gcmCall sharedKey.aesKey firstNonce),
      .inl (.dataSent sharedKey.aesKey .encrypted firstNonce (ascii "hello")
        (ascii "hello") sharedKey.aesKey),
      .inr (.accepted sharedKey.aesKey .file firstNonce
        ⟨ascii "hello", by decide⟩ sharedKey.aesKey (ascii "hello"))] := by
  decide +kernel

theorem reach_helloRun : openLink.Reach (GcmIdeal Mbedtls.transparent) bothKeyed
    (openLink.trace bothKeyed helloRun) (openLink.run bothKeyed helloRun) := by
  apply Machine.reach_run
  decide +kernel

/-- A chat message, put into a frame with the type `FILE` and a new CRC, is
accepted as a file. -/
theorem message_accepted_as_file :
    .frame helloAsFile ∈ (uartRun 5 ⟨0, steady (sendData .file firstNonce
        (ascii "hello") sharedKey.aesKey)⟩).1 ∧
      openLink.Reach (GcmIdeal Mbedtls.transparent) bothKeyed
        (openLink.trace bothKeyed helloRun) (openLink.run bothKeyed helloRun) ∧
      .inr (.accepted sharedKey.aesKey .file firstNonce
          ⟨ascii "hello", by decide⟩ sharedKey.aesKey (ascii "hello")) ∈
        openLink.trace bothKeyed helloRun ∧
      ∀ key nonce plaintext ciphertext tag,
        .inl (.dataSent key .file nonce plaintext ciphertext tag) ∉
          openLink.trace bothKeyed helloRun := by
  refine ⟨by decide +kernel, reach_helloRun, ?_, ?_⟩
  · rw [trace_helloRun]
    simp
  · intro key nonce plaintext ciphertext tag hmem
    rw [trace_helloRun] at hmem
    simp at hmem

/-- It had been transmitted as a message. -/
theorem accepted_was_transmitted_hello :
    ∃ sentType, .inl (.dataSent sharedKey.aesKey sentType firstNonce
        (ascii "hello") (ascii "hello") sharedKey.aesKey) ∈
      ([.inl (.gcmCall sharedKey.aesKey firstNonce),
        .inl (.dataSent sharedKey.aesKey .encrypted firstNonce (ascii "hello")
          (ascii "hello") sharedKey.aesKey)] : List LinkOut) := by
  have ht : openLink.trace bothKeyed helloRun =
      [.inl (.gcmCall sharedKey.aesKey firstNonce),
        .inl (.dataSent sharedKey.aesKey .encrypted firstNonce (ascii "hello")
          (ascii "hello") sharedKey.aesKey)] ++
      .inr (.accepted sharedKey.aesKey .file firstNonce
        ⟨ascii "hello", by decide⟩ sharedKey.aesKey (ascii "hello")) :: [] :=
    trace_helloRun
  exact accepted_was_transmitted Mbedtls.lawful_transparent reach_helloRun ht

end LifiAuth
