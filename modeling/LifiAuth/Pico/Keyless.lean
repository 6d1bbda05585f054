import LifiAuth.Pico.Drain
import LifiAuth.Pico.HandshakeSteps
import LifiAuth.Pico.NonceUnique

/-!
# The handshake without a key

The message path refuses to encrypt under a zero key; the handshake handlers have
no such check.  This file says exactly which byte streams make a sender without a
key answer a handshake or report success.
-/

namespace LifiAuth

open Support

variable (m : Mbedtls) (hse : HeatshrinkEncoder)

/-! ## Messages that pass -/

/-- An `SST_HS1` made with the given id, cipher key and MAC key. -/
def Hs1Passes (id : Bytes 8) (key : Bytes 16) (macKey : Bytes 32)
    (hs1 : Bytes 72) : Prop :=
  hs1KeyId hs1 = id ∧
    m.sstHmacSha256Ex macKey (hs1Body hs1).toList = some (hs1Mac hs1) ∧
    ∃ plain, m.sstAes128CbcDecrypt key (hs1Iv hs1) (hs1Ctext hs1) =
        some plain ∧ 1 ≤ hs1Pad plain ∧ hs1Pad plain ≤ 16

/-- An `SST_HS3` made with the given keys that echoes the given nonce. -/
def Hs3Passes (key : Bytes 16) (macKey : Bytes 32) (picoNonce : Bytes 8)
    (hs3 : Bytes 80) : Prop :=
  m.sstHmacSha256Ex macKey (blobBody hs3).toList = some (blobMac hs3) ∧
    ∃ plain, m.sstAes128CbcDecrypt key (blobIv hs3) (blobCtext hs3) =
        some plain ∧ 1 ≤ hs3Pad plain ∧ hs3Pad plain ≤ 16 ∧
      plainIndicator plain = 3 ∧ plainSecond plain = picoNonce

theorem openHs1_isSome_iff (hs1 : Bytes 72) (p : Pico) :
    (openHs1 m hs1 p).isSome ↔
      Hs1Passes m p.sessionKeyId p.sessionKey p.sessionMacKey hs1 := by
  simp only [openHs1, Hs1Passes]
  by_cases hid : hs1KeyId hs1 = p.sessionKeyId
  · by_cases hmac : m.sstHmacSha256Ex p.sessionMacKey (hs1Body hs1).toList =
        some (hs1Mac hs1)
    · rw [if_neg (not_not_intro hid), if_neg (not_not_intro hmac)]
      cases hdec : m.sstAes128CbcDecrypt p.sessionKey (hs1Iv hs1)
          (hs1Ctext hs1) with
      | none => simp
      | some plain =>
          simp only [hid, hmac, Option.some.injEq, exists_eq_left', true_and]
          by_cases hpad : hs1Pad plain < 1 ∨ hs1Pad plain > 16
          · rw [if_pos hpad]
            refine iff_of_false Bool.false_ne_true ?_
            rintro ⟨hlow, hhigh⟩
            rcases hpad with hpad | hpad
            · exact UInt8.not_le.mpr hpad hlow
            · exact UInt8.not_le.mpr hpad hhigh
          · rw [if_neg hpad]
            obtain ⟨hlow, hhigh⟩ := not_or.mp hpad
            exact iff_of_true rfl ⟨UInt8.not_lt.mp hlow, UInt8.not_lt.mp hhigh⟩
    · rw [if_neg (not_not_intro hid), if_pos hmac]
      simp [hmac]
  · rw [if_pos hid]
    simp [hid]

/-- The third message is accepted exactly if it passes. -/
theorem hs3_accepted_iff (hs3 : Bytes 80) (p : Pico) :
    (∃ plain, openHs3 m hs3 p = some plain ∧
        hs3Ok plain p.savedPicoNonce = true) ↔
      Hs3Passes m p.sessionKey p.sessionMacKey p.savedPicoNonce hs3 := by
  simp only [openHs3, hs3Ok, Hs3Passes, Bool.and_eq_true, decide_eq_true_eq,
    beq_iff_eq, and_assoc]
  by_cases hmac : m.sstHmacSha256Ex p.sessionMacKey (blobBody hs3).toList =
      some (blobMac hs3)
  · rw [if_neg (not_not_intro hmac)]
    simp only [hmac, true_and]
  · rw [if_pos hmac]
    simp [hmac]

/-! ## Silent runs -/

/-- The first handshake messages among some reports. -/
def hs1Reports (rs : List PicoReport) : List (Bytes 72) :=
  rs.filterMap fun
    | .hs1 payload => some payload
    | _ => none

/-- The third handshake messages among some reports. -/
def hs3Reports (rs : List PicoReport) : List (Bytes 80) :=
  rs.filterMap fun
    | .hs3 payload => some payload
    | _ => none

/-- No first message passes, and no third one does: the first of them with the
nonce that is saved, and the others with the zero nonce its rejection leaves. -/
structure NonePasses (id : Bytes 8) (key : Bytes 16) (macKey : Bytes 32)
    (saved : Bytes 8) (rs : List PicoReport) : Prop where
  hs1 : ∀ payload ∈ hs1Reports rs, ¬ Hs1Passes m id key macKey payload
  hs3_head : ∀ payload ∈ (hs3Reports rs).head?,
    ¬ Hs3Passes m key macKey saved payload
  hs3_tail : ∀ payload ∈ (hs3Reports rs).tail,
    ¬ Hs3Passes m key macKey (Bytes.zero 8) payload

section

variable {m} {id : Bytes 8} {key : Bytes 16} {macKey : Bytes 32}
  {saved : Bytes 8} {rs : List PicoReport}

theorem nonePasses_congr {rs' : List PicoReport}
    (h1 : hs1Reports rs = hs1Reports rs') (h3 : hs3Reports rs = hs3Reports rs') :
    NonePasses m id key macKey saved rs ↔
      NonePasses m id key macKey saved rs' := by
  constructor
  · rintro ⟨hs1, hhead, htail⟩
    exact ⟨h1 ▸ hs1, h3 ▸ hhead, h3 ▸ htail⟩
  · rintro ⟨hs1, hhead, htail⟩
    exact ⟨h1 ▸ hs1, h3 ▸ hhead, h3 ▸ htail⟩

theorem nonePasses_hs1 (payload : Bytes 72) :
    NonePasses m id key macKey saved (.hs1 payload :: rs) ↔
      ¬ Hs1Passes m id key macKey payload ∧
        NonePasses m id key macKey saved rs := by
  constructor
  · rintro ⟨hs1, hhead, htail⟩
    obtain ⟨hfirst, hrest⟩ := List.forall_mem_cons.mp hs1
    exact ⟨hfirst, hrest, hhead, htail⟩
  · rintro ⟨hfirst, hs1, hhead, htail⟩
    exact ⟨List.forall_mem_cons.mpr ⟨hfirst, hs1⟩, hhead, htail⟩

theorem nonePasses_hs3 (payload : Bytes 80) :
    NonePasses m id key macKey saved (.hs3 payload :: rs) ↔
      ¬ Hs3Passes m key macKey saved payload ∧
        NonePasses m id key macKey (Bytes.zero 8) rs := by
  constructor
  · rintro ⟨hs1, hhead, htail⟩
    refine ⟨hhead payload rfl, hs1, ?_, ?_⟩
    · intro later hlater
      exact htail later (List.mem_of_mem_head? hlater)
    · intro later hlater
      exact htail later (List.mem_of_mem_tail hlater)
  · rintro ⟨hfirst, hs1, hhead, htail⟩
    refine ⟨hs1, ?_, ?_⟩
    · rintro first ⟨⟩
      exact hfirst
    · intro later hlater
      change later ∈ hs3Reports rs at hlater
      cases hrest : hs3Reports rs with
      | nil =>
          rw [hrest] at hlater
          exact absurd hlater List.not_mem_nil
      | cons a l =>
          rw [hrest] at hhead htail hlater
          rcases List.mem_cons.mp hlater with rfl | hmem
          · exact hhead later rfl
          · exact htail later hmem

end

/-! ## One report -/

theorem buildHs2_isSome (hm : m.Total) (random : Hs2Random)
    (entityNonce : Bytes 8) (p : Pico) :
    ∃ blob, buildHs2 m random entityNonce p = some blob := by
  obtain ⟨ctext, hctext⟩ := Option.isSome_iff_exists.mp
    (hm.cbc_encrypt p.sessionKey random.iv
      (Mbedtls.padPkcs7 (hsPlain 2 random.picoNonce entityNonce)))
  obtain ⟨mac, hmac⟩ := Option.isSome_iff_exists.mp
    (hm.hmac p.sessionMacKey (random.iv.append ctext).toList)
  refine ⟨hsBlob random.iv ctext mac, ?_⟩
  have hctext' : m.sstAes128CbcEncryptPkcs7 p.sessionKey random.iv
      (hsPlain 2 random.picoNonce entityNonce) = some ctext := hctext
  have hmac' : m.sstHmacSha256Ex p.sessionMacKey
      (random.iv.append ctext).toList = some mac := hmac
  simp only [buildHs2, hctext', hmac']

/-- A first message that does not pass is dropped; one that passes is answered. -/
theorem handleHs1_silent_or_passes (hm : m.Total) (env : PicoEnv) (hs1 : Bytes 72)
    (p : Pico) :
    (¬ Hs1Passes m p.sessionKeyId p.sessionKey p.sessionMacKey hs1 ∧
        handleHs1 m env hs1 p = (p, [])) ∨
      Hs1Passes m p.sessionKeyId p.sessionKey p.sessionMacKey hs1 ∧
        ¬ HandshakeSilent (handleHs1 m env hs1 p).2 := by
  rw [← openHs1_isSome_iff]
  cases hopen : openHs1 m hs1 p with
  | none =>
      refine Or.inl ⟨Bool.false_ne_true, ?_⟩
      simp only [handleHs1, hopen]
  | some entityNonce =>
      refine Or.inr ⟨rfl, ?_⟩
      obtain ⟨blob, hblob⟩ := buildHs2_isSome m hm env.hs2 entityNonce p
      intro hsilent
      simp only [handleHs1, hopen, hblob] at hsilent
      exact (hsilent _ (List.mem_singleton_self _)).1 _ _ _ _ rfl

/-- A third message that does not pass costs the saved nonce; one that passes is
reported. -/
theorem handleHs3_silent_or_passes (hs3 : Bytes 80) (p : Pico) :
    (¬ Hs3Passes m p.sessionKey p.sessionMacKey p.savedPicoNonce hs3 ∧
        handleHs3 m hs3 p = ({ p with savedPicoNonce := Bytes.zero 8 }, [])) ∨
      Hs3Passes m p.sessionKey p.sessionMacKey p.savedPicoNonce hs3 ∧
        ¬ HandshakeSilent (handleHs3 m hs3 p).2 := by
  by_cases hpass : Hs3Passes m p.sessionKey p.sessionMacKey p.savedPicoNonce hs3
  · refine Or.inr ⟨hpass, ?_⟩
    obtain ⟨plain, hopen, hok⟩ := (hs3_accepted_iff m hs3 p).mpr hpass
    intro hsilent
    simp only [handleHs3, hopen, hok, if_true] at hsilent
    exact (hsilent _ (List.mem_singleton_self _)).2 _ _ rfl
  · refine Or.inl ⟨hpass, ?_⟩
    rw [← hs3_accepted_iff] at hpass
    simp only [handleHs3]
    split
    · rfl
    · next plain hopen =>
        rw [if_neg]
        intro hok
        exact hpass ⟨plain, hopen, hok⟩

/-! ## Draining a line -/

/-- A sender stays silent over a line without KEY frames exactly if none of the
handshake messages on it passes. -/
theorem handshakeSilent_iff (hm : m.Total) (envs : List PicoEnv) (p : Pico)
    (u : PicoUart)
    (hkey : ∀ id k mk, .key id k mk ∉ picoReports envs.length u) :
    HandshakeSilent ((lifiDrain m).trace (p, u) envs) ↔
      NonePasses m p.sessionKeyId p.sessionKey p.sessionMacKey p.savedPicoNonce
        (picoReports envs.length u) := by
  induction envs generalizing p u with
  | nil =>
      refine iff_of_true handshakeSilent_nil ⟨?_, ?_, ?_⟩
      all_goals simp [picoReports, hs1Reports, hs3Reports]
  | cons env envs ih =>
      have hreports : picoReports (env :: envs).length u =
          (picoUartIter u).1 ::
            picoReports envs.length (picoUartIter u).2 := rfl
      have hstep : (lifiDrain m).step (p, u) env =
          (((handlePicoReport m env (picoUartIter u).1 p).1,
              (picoUartIter u).2),
            (handlePicoReport m env (picoUartIter u).1 p).2) := rfl
      rw [hreports] at hkey ⊢
      rw [Machine.trace_cons, handshakeSilent_append, hstep]
      generalize (picoUartIter u).1 = r at hkey ⊢
      have hlater : ∀ id k mk,
          .key id k mk ∉ picoReports envs.length (picoUartIter u).2 := by
        intro id k mk hmem
        exact hkey id k mk (List.mem_cons_of_mem _ hmem)
      cases r with
      | hs1 payload =>
          rw [nonePasses_hs1, handlePicoReport]
          rcases handleHs1_silent_or_passes m hm env payload p with
            ⟨hpass, heq⟩ | ⟨hpass, hloud⟩
          · rw [heq, ih p _ hlater]
            exact and_congr (iff_of_true handshakeSilent_nil hpass) Iff.rfl
          · exact iff_of_false (fun h => hloud h.1) (fun h => h.1 hpass)
      | hs3 payload =>
          rw [nonePasses_hs3, handlePicoReport]
          rcases handleHs3_silent_or_passes m payload p with
            ⟨hpass, heq⟩ | ⟨hpass, hloud⟩
          · rw [heq, ih _ _ hlater]
            exact and_congr (iff_of_true handshakeSilent_nil hpass) Iff.rfl
          · exact iff_of_false (fun h => hloud h.1) (fun h => h.1 hpass)
      | key id k mk => exact absurd List.mem_cons_self (hkey id k mk)
      | quiet | lengthTimeout type | badLength type len | payloadTimeout type
      | unknownType type =>
          rw [handlePicoReport, ih p _ hlater]
          refine (and_iff_right handshakeSilent_nil).trans ?_
          exact nonePasses_congr rfl rfl

/-- A sender whose session key is zero stays silent over a line without KEY frames
exactly if no handshake message on it passes under the zero key, the key id and the
MAC key that are left. -/
theorem keyless_sender_silent_iff (hm : m.Total) (envs : List PicoEnv)
    (p : Pico) (hzero : isKeyZeroed p.sessionKey = true) (u : PicoUart)
    (hkey : ∀ id k mk, .key id k mk ∉ picoReports envs.length u) :
    HandshakeSilent ((lifiDrain m).trace (p, u) envs) ↔
      NonePasses m p.sessionKeyId (Bytes.zero 16) p.sessionMacKey
        p.savedPicoNonce (picoReports envs.length u) := by
  rw [handshakeSilent_iff m hm envs p u hkey, (isKeyZeroed_iff _).mp hzero]

/-- An unprovisioned sender after its boot. -/
def unprovisioned : Pico :=
  (lifiSender Mbedtls.transparent .idle).run (Pico.off Flash.erased)
    [(.withSalt (some (Bytes.zero 8)), .boot)]

/-- A third message anybody can send to it: made with the all-zero keys, echoing
the zero nonce. -/
def forgedHs3 : Bytes 80 :=
  hsBlob (Bytes.zero 16)
    (Mbedtls.padPkcs7 (hsPlain 3 (Bytes.zero 8) (Bytes.zero 8))) (Bytes.zero 32)

/-- A first message made with the all-zero keys. -/
def forgedHs1 : Bytes 72 :=
  hs1Message (Bytes.zero 8) (Bytes.zero 16)
    (Mbedtls.padPkcs7 (hs1Plain (Bytes.zero 8))) (Bytes.zero 32)

/-- The line that carries both. -/
def forgedLine : PicoUart where
  challengeState := 0
  line := steady (preamble ++ [msgTypeSstHs3, 0, 80] ++ forgedHs3.toList ++
    (preamble ++ [msgTypeSstHs1, 0, 72] ++ forgedHs1.toList))

def tenLooks : List PicoEnv :=
  List.replicate 10 .salted

theorem picoReports_forgedLine : picoReports 10 forgedLine =
    [.quiet, .quiet, .quiet, .quiet, .hs3 forgedHs3,
      .quiet, .quiet, .quiet, .quiet, .hs1 forgedHs1] := by
  decide +kernel

theorem no_key_on_forgedLine (id : Bytes 8) (k : Bytes 16) (mk : Bytes 32) :
    .key id k mk ∉ picoReports tenLooks.length forgedLine := by
  intro hmem
  have hlen : tenLooks.length = 10 := rfl
  rw [hlen, picoReports_forgedLine] at hmem
  simp at hmem

/-- The unprovisioned sender reports success after the forged third message and
answers the forged first one. -/
theorem unprovisioned_sender_authenticates :
    unprovisioned.sessionKey = Bytes.zero 16 ∧
      (∀ id k mk, .key id k mk ∉ picoReports tenLooks.length forgedLine) ∧
      (lifiDrain Mbedtls.transparent).trace (unprovisioned, forgedLine) tenLooks =
        [.mutualAuthOk (Bytes.zero 8) forgedHs3,
          .hs2Sent (Bytes.zero 32) (Bytes.zero 8) (Bytes.zero 8)
            (hsBlob (Bytes.zero 16)
              (Mbedtls.padPkcs7 (hsPlain 2 (Bytes.zero 8) (Bytes.zero 8)))
              (Bytes.zero 32))] :=
  ⟨by decide +kernel, no_key_on_forgedLine, by decide +kernel⟩

/-- The forged line does not meet the condition. -/
theorem keyless_sender_silent_iff_forged :
    ¬ NonePasses Mbedtls.transparent unprovisioned.sessionKeyId (Bytes.zero 16)
      unprovisioned.sessionMacKey unprovisioned.savedPicoNonce
      (picoReports tenLooks.length forgedLine) := by
  rw [← keyless_sender_silent_iff Mbedtls.transparent Mbedtls.total_transparent
    tenLooks unprovisioned (by decide +kernel) forgedLine no_key_on_forgedLine]
  intro hsilent
  have hok : PicoOut.mutualAuthOk (Bytes.zero 8) forgedHs3 ∈
      (lifiDrain Mbedtls.transparent).trace (unprovisioned, forgedLine)
        tenLooks := by
    decide +kernel
  exact (hsilent _ hok).2 _ _ rfl

end LifiAuth
