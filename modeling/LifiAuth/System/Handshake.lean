import LifiAuth.Dash.SstApi
import LifiAuth.Pico.NonceUnique
import LifiAuth.System.Link

/-!
# Agreement in the handshake

Sender and receiver share a key, and an adversary delivers, drops, reorders,
reflects and makes up handshake messages.  A tag verifies only over bytes that one
of the two tagged before, and nonces do not repeat; from this, every success of one
side goes back to the matching messages of the other.
-/

namespace LifiAuth

open Support

variable (m : Mbedtls) (hse : HeatshrinkEncoder) (api : SstApi)
  (aesOf : Bytes 32 → Bytes 16)

/-! ## What a trace says about the handshake -/

/-- The MAC keys and bytes under the tags computed so far. -/
def macs (t : List LinkOut) : List (Bytes 32 × List UInt8) :=
  t.filterMap fun
    | .inl (.hs2Sent macKey _ _ hs2) => some (macKey, (blobBody hs2).toList)
    | .inr (.hs1Made key _ hs1) => some (key.macKey, (hs1.drop 8).take 32)
    | .inr (.hs2Verified key _ _ hs3) => some (key.macKey, hs3.take 48)
    | _ => none

/-- The nonces of the `SST_HS2` messages sent so far. -/
def picoNonces (t : List LinkOut) : List (Bytes 8) :=
  t.filterMap fun
    | .inl (.hs2Sent _ _ picoNonce _) => some picoNonce
    | _ => none

/-- The nonces and messages of the successes reported by the sender. -/
def authenticated (t : List LinkOut) : List (Bytes 8 × Bytes 80) :=
  t.filterMap fun
    | .inl (.mutualAuthOk picoNonce hs3) => some (picoNonce, hs3)
    | _ => none

/-- The MAC key, bytes and tag of a delivered handshake message. -/
def deliveredTag (s : Pico × Dash) :
    LinkIn → Option (Bytes 32 × List UInt8 × Bytes 32)
  | .inl (_, .uart (.hs1 hs1)) =>
      some (s.1.sessionMacKey, (hs1Body hs1).toList, hs1Mac hs1)
  | .inl (_, .uart (.hs3 hs3)) =>
      some (s.1.sessionMacKey, (blobBody hs3).toList, blobMac hs3)
  | .inr (_, .uart (.frame (.sstHs2 hs2))) =>
      some (s.2.sKey.macKey, (blobBody hs2).toList, blobMac hs2)
  | _ => none

def keepsSenderKeys : LinkIn → Bool
  | .inl (_, ev) => keepsKeys ev
  | .inr _ => true

/-- The rules of a run: the sender keeps its keys; its nonces are fresh and not
zero; a tag verifies only over bytes that were tagged before; and the receiver may
change its key, but a MAC key always comes with the same cipher key. -/
def HandshakeRules (t : List LinkOut) (s : Pico × Dash) (i : LinkIn) : Prop :=
  keepsSenderKeys i = true ∧
    (∀ np ∈ picoNonces ((lifiLink m hse api).step s i).2,
      np ≠ Bytes.zero 8 ∧ np ∉ picoNonces t) ∧
    (∀ x ∈ deliveredTag s i, m.sstHmacSha256Ex x.1 x.2.1 = some x.2.2 →
      (x.1, x.2.1) ∈ macs t) ∧
    aesOf ((lifiLink m hse api).step s i).1.2.sKey.macKey =
      ((lifiLink m hse api).step s i).1.2.sKey.aesKey

instance (t : List LinkOut) (s : Pico × Dash) (i : LinkIn) :
    Decidable (HandshakeRules m hse api aesOf t s i) :=
  inferInstanceAs (Decidable (_ ∧ _))

/-! ## Genuine messages -/

/-- What the two programs put into their handshake outputs. -/
def Genuine : LinkOut → Prop
  | .inl (.hs2Sent macKey entityNonce picoNonce hs2) =>
      m.sstHmacSha256Ex macKey (blobBody hs2).toList = some (blobMac hs2) ∧
        m.sstAes128CbcDecrypt (aesOf macKey) (blobIv hs2) (blobCtext hs2) =
          some (Mbedtls.padPkcs7 (hsPlain 2 picoNonce entityNonce))
  | .inr (.hs1Made key entityNonce hs1) =>
      ∃ iv ctext mac, hs1 = (hs1Message key.keyId iv ctext mac).toList ∧
        m.sstAes128CbcDecrypt (aesOf key.macKey) iv ctext =
          some (Mbedtls.padPkcs7 (hs1Plain entityNonce))
  | .inr (.hs2Verified key entityNonce hs2 hs3) =>
      m.sstHmacSha256Ex key.macKey (blobBody hs2).toList = some (blobMac hs2) ∧
        ∃ plain blob,
          m.sstAes128CbcDecrypt (aesOf key.macKey) (blobIv hs2) (blobCtext hs2) =
              some plain ∧
            plainIndicator plain = 2 ∧ plainSecond plain = entityNonce ∧
            hs3 = blob.toList ∧
            m.sstHmacSha256Ex key.macKey (blobBody blob).toList =
              some (blobMac blob) ∧
            m.sstAes128CbcDecrypt (aesOf key.macKey) (blobIv blob)
                (blobCtext blob) =
              some (Mbedtls.padPkcs7
                (hsPlain 3 entityNonce (plainFirst plain)))
  | _ => True

section

variable {m aesOf} {t : List LinkOut} {macKey : Bytes 32}

theorem mem_macs {body : List UInt8} (h : (macKey, body) ∈ macs t) :
    (∃ e np hs2, .inl (.hs2Sent macKey e np hs2) ∈ t ∧
        body = (blobBody hs2).toList) ∨
      (∃ key e hs1, .inr (.hs1Made key e hs1) ∈ t ∧ key.macKey = macKey ∧
        body = (hs1.drop 8).take 32) ∨
      ∃ key e hs2 hs3, .inr (.hs2Verified key e hs2 hs3) ∈ t ∧
        key.macKey = macKey ∧ body = hs3.take 48 := by
  obtain ⟨o, ho, heq⟩ := List.mem_filterMap.mp h
  rcases o with o | o
  · cases o with
    | hs2Sent mk e np hs2 =>
        obtain ⟨rfl, rfl⟩ := Prod.mk.inj (Option.some.inj heq)
        exact Or.inl ⟨e, np, hs2, ho, rfl⟩
    | _ => cases heq
  · cases o with
    | hs1Made key e hs1 =>
        obtain ⟨rfl, rfl⟩ := Prod.mk.inj (Option.some.inj heq)
        exact Or.inr (Or.inl ⟨key, e, hs1, ho, rfl, rfl⟩)
    | hs2Verified key e hs2 hs3 =>
        obtain ⟨rfl, rfl⟩ := Prod.mk.inj (Option.some.inj heq)
        exact Or.inr (Or.inr ⟨key, e, hs2, hs3, ho, rfl, rfl⟩)
    | _ => cases heq

/-- A blob whose tag verifies is a second message of the sender or a third one of
the receiver. -/
theorem blob_origin (hgen : ∀ o ∈ t, Genuine m aesOf o) {blob : Bytes 80}
    {plain : Bytes 32} (hmem : (macKey, (blobBody blob).toList) ∈ macs t)
    (hmac : m.sstHmacSha256Ex macKey (blobBody blob).toList =
      some (blobMac blob))
    (hdec : m.sstAes128CbcDecrypt (aesOf macKey) (blobIv blob) (blobCtext blob) =
      some plain) :
    (∃ e np, .inl (.hs2Sent macKey e np blob) ∈ t ∧
        plain = Mbedtls.padPkcs7 (hsPlain 2 np e)) ∨
      ∃ key e hs2 np, .inr (.hs2Verified key e hs2 blob.toList) ∈ t ∧
        key.macKey = macKey ∧ plain = Mbedtls.padPkcs7 (hsPlain 3 e np) ∧
        ∃ plain2, m.sstAes128CbcDecrypt (aesOf macKey) (blobIv hs2)
          (blobCtext hs2) = some plain2 ∧ plainFirst plain2 = np := by
  rcases mem_macs hmem with ⟨e, np, hs2, ho, hbody⟩ |
    ⟨key, e, hs1, ho, hkey, hbody⟩ | ⟨key, e, hs2, hs3, ho, hkey, hbody⟩
  · obtain ⟨hmac2, hdec2⟩ := hgen _ ho
    have hblob : blob = hs2 := by
      refine blob_ext hbody ?_
      rw [hbody, hmac2] at hmac
      exact (Option.some.inj hmac).symm
    subst hblob
    rw [hdec] at hdec2
    exact Or.inl ⟨e, np, ho, Option.some.inj hdec2⟩
  · -- the first messages have 32 bytes under their tag
    have hlen := congrArg List.length hbody
    rw [(blobBody blob).toList_length, List.length_take] at hlen
    omega
  · obtain ⟨-, plain2, blob3, hdec2, -, -, rfl, hmac3, hdec3⟩ := hgen _ ho
    subst hkey
    rw [take_toList_blob] at hbody
    have hblob : blob = blob3 := by
      refine blob_ext hbody ?_
      rw [hbody, hmac3] at hmac
      exact (Option.some.inj hmac).symm
    subst hblob
    rw [hdec] at hdec3
    exact Or.inr ⟨key, e, hs2, plainFirst plain2, ho, rfl,
      Option.some.inj hdec3, plain2, hdec2, rfl⟩

/-- A second message names one nonce. -/
theorem nonce_of_hs2Sent (hgen : ∀ o ∈ t, Genuine m aesOf o) {macKey : Bytes 32}
    {e np np' : Bytes 8} {hs2 : Bytes 80} (h : .inl (.hs2Sent macKey e np hs2) ∈ t)
    (h' : .inl (.hs2Sent macKey e np' hs2) ∈ t) : np = np' := by
  obtain ⟨-, hdec⟩ := hgen _ h
  obtain ⟨-, hdec'⟩ := hgen _ h'
  rw [hdec] at hdec'
  have hfirst := congrArg plainFirst (Option.some.inj hdec')
  rwa [plainFirst_pad, plainFirst_pad] at hfirst

/-- A first message whose tag verifies is one of the receiver. -/
theorem hs1_origin (hgen : ∀ o ∈ t, Genuine m aesOf o) {hs1 : Bytes 72}
    {plain : Bytes 16} (hmem : (macKey, (hs1Body hs1).toList) ∈ macs t)
    (hdec : m.sstAes128CbcDecrypt (aesOf macKey) (hs1Iv hs1) (hs1Ctext hs1) =
      some plain) :
    ∃ key sent, .inr (.hs1Made key (hs1EntityNonce plain) sent) ∈ t ∧
      key.macKey = macKey := by
  rcases mem_macs hmem with ⟨e, np, hs2, ho, hbody⟩ |
    ⟨key, e, sent, ho, hkey, hbody⟩ | ⟨key, e, hs2, hs3, ho, hkey, hbody⟩
  · have hlen := congrArg List.length hbody
    rw [(hs1Body hs1).toList_length, (blobBody hs2).toList_length] at hlen
    omega
  · obtain ⟨iv, ctext, mac, rfl, hdec1⟩ := hgen _ ho
    subst hkey
    rw [take_drop_hs1Message] at hbody
    obtain ⟨hiv, hctext⟩ := iv_ctext_of_append_eq hbody
    rw [hiv, hctext, hdec1] at hdec
    rw [← Option.some.inj hdec, hs1EntityNonce_pad]
    exact ⟨key, _, ho, rfl⟩
  · obtain ⟨-, plain2, blob3, -, -, -, rfl, -, -⟩ := hgen _ ho
    have hlen := congrArg List.length hbody
    rw [take_toList_blob, (hs1Body hs1).toList_length,
      (blobBody blob3).toList_length] at hlen
    omega

end

/-! ## One step -/

theorem buildHs2_spec {random : Hs2Random} {entityNonce : Bytes 8} {p : Pico}
    {hs2 : Bytes 80} (h : buildHs2 m random entityNonce p = some hs2) :
    m.sstHmacSha256Ex p.sessionMacKey (blobBody hs2).toList =
        some (blobMac hs2) ∧
      m.sstAes128CbcEncryptPkcs7 p.sessionKey (blobIv hs2)
        (hsPlain 2 random.picoNonce entityNonce) = some (blobCtext hs2) := by
  simp only [buildHs2] at h
  split at h
  · exact absurd h (by simp)
  · next ctext hctext =>
      split at h
      · exact absurd h (by simp)
      · next mac hmac =>
          obtain rfl := Option.some.inj h
          simp only [blobBody, blobIv_hsBlob, blobCtext_hsBlob, blobMac_hsBlob]
          exact ⟨hmac, hctext⟩

theorem openHs3_spec {hs3 : Bytes 80} {p : Pico} {plain : Bytes 32}
    (h : openHs3 m hs3 p = some plain) :
    m.sstHmacSha256Ex p.sessionMacKey (blobBody hs3).toList =
        some (blobMac hs3) ∧
      m.sstAes128CbcDecrypt p.sessionKey (blobIv hs3) (blobCtext hs3) =
        some plain := by
  rw [openHs3] at h
  split at h
  · exact absurd h (by simp)
  · next hmac => exact ⟨not_not.mp hmac, h⟩

theorem openHs1_spec {hs1 : Bytes 72} {p : Pico} {entityNonce : Bytes 8}
    (h : openHs1 m hs1 p = some entityNonce) :
    m.sstHmacSha256Ex p.sessionMacKey (hs1Body hs1).toList =
        some (hs1Mac hs1) ∧
      ∃ plain, m.sstAes128CbcDecrypt p.sessionKey (hs1Iv hs1) (hs1Ctext hs1) =
        some plain ∧ hs1EntityNonce plain = entityNonce := by
  simp only [openHs1] at h
  split at h
  · exact absurd h (by simp)
  · split at h
    · exact absurd h (by simp)
    · next hmac =>
        split at h
        · exact absurd h (by simp)
        · next plain hplain =>
            split at h
            · exact absurd h (by simp)
            · exact ⟨not_not.mp hmac, plain, hplain, Option.some.inj h⟩

variable {m hse api aesOf}

/-- An output that is neither an answer nor a success asks for nothing. -/
theorem genuine_of_silent {out : List PicoOut} (h : HandshakeSilent out)
    {o : PicoOut} (ho : o ∈ out) : Genuine m aesOf (.inl o) := by
  obtain ⟨hsent, -⟩ := h o ho
  cases o with
  | hs2Sent macKey e np hs2 => exact absurd rfl (hsent macKey e np hs2)
  | _ => trivial

theorem genuine_dashOut (hm : m.Lawful) (hapi : api.Lawful m) {d : Dash}
    {env : DashEnv} {ev : DashEvent} {d' : Dash}
    (hd : aesOf d.sKey.macKey = d.sKey.aesKey)
    (hd' : aesOf d'.sKey.macKey = d'.sKey.aesKey) {o : DashOut}
    (ho : o.Explained m api d env ev d') : Genuine m aesOf (.inr o) := by
  cases o with
  | hs1Made key e hs1 =>
      obtain ⟨rfl, hparse⟩ := ho
      obtain ⟨rfl, ctext, mac, hctext, -, rfl⟩ := hapi.parse _ _ _ _ hparse
      refine ⟨env.hs.iv, ctext, mac, rfl, ?_⟩
      rw [hd']
      exact hm.cbc_decrypt _ _ _ _ hctext
  | hs2Verified key e hs2 hs3 =>
      obtain ⟨-, rfl, -, hcheck⟩ := ho
      obtain ⟨hmac, plain, ctext, mac, hplain, hind, hsecond, hctext, hmac3, rfl⟩ :=
        hapi.check _ _ _ _ _ hcheck
      refine ⟨hmac, plain, hsBlob env.hs.iv ctext mac, ?_, hind, hsecond, rfl,
        ?_, ?_⟩
      · rw [hd]
        exact hplain
      · simpa only [blobBody, blobIv_hsBlob, blobCtext_hsBlob, blobMac_hsBlob]
          using hmac3
      · rw [hd, blobIv_hsBlob, blobCtext_hsBlob]
        exact hm.cbc_decrypt _ _ _ _ hctext
  | _ => trivial

/-! ## Origins over a run -/

/-- What holds of the keys and of the messages of a past: they are genuine, and
every verification goes back to a message the sender sent. -/
structure GenuinePast (m : Mbedtls) (aesOf : Bytes 32 → Bytes 16)
    (macKey : Bytes 32) (t : List LinkOut) (s : Pico × Dash) : Prop where
  cipher : s.1.sessionKey = aesOf macKey
  mac : s.1.sessionMacKey = macKey
  paired : aesOf s.2.sKey.macKey = s.2.sKey.aesKey
  genuine : ∀ o ∈ t, Genuine m aesOf o
  sender : ∀ mk e np hs2, .inl (.hs2Sent mk e np hs2) ∈ t → mk = macKey
  answers : ∀ key e hs2 hs3, .inr (.hs2Verified key e hs2 hs3) ∈ t →
    ∃ np, .inl (.hs2Sent key.macKey e np hs2) ∈ t

section

variable {macKey : Bytes 32} {t : List LinkOut} {s : Pico × Dash}

/-- A second message that verifies was sent by the sender, for the entity nonce of
the receiver. -/
theorem verified_answers (hapi : api.Lawful m)
    (hpast : GenuinePast m aesOf macKey t s) {env : DashEnv} {ev : DashEvent}
    {d' : Dash} {key : SessionKey} {e : Bytes 8} {hs2 : Bytes 80}
    {hs3 : List UInt8}
    (ho : (DashOut.hs2Verified key e hs2 hs3).Explained m api s.2 env ev d')
    (hideal : ∀ x ∈ deliveredTag s (.inr (env, ev)),
      m.sstHmacSha256Ex x.1 x.2.1 = some x.2.2 → (x.1, x.2.1) ∈ macs t) :
    ∃ np, .inl (.hs2Sent key.macKey e np hs2) ∈ t := by
  obtain ⟨rfl, rfl, rfl, hcheck⟩ := ho
  obtain ⟨hmac, plain, ctext, mac, hplain, hind, hsecond, -, -, -⟩ :=
    hapi.check _ _ _ _ _ hcheck
  have hmem := hideal _ rfl hmac
  rw [← hpast.paired] at hplain
  rcases blob_origin hpast.genuine hmem hmac hplain with
    ⟨e, np, hsent, rfl⟩ | ⟨key, e, hs2', np, -, -, rfl, -⟩
  · rw [plainSecond_pad] at hsecond
    exact ⟨np, hsecond ▸ hsent⟩
  · -- a third message has another indicator
    rw [plainIndicator_pad] at hind
    exact absurd hind (by decide)

/-- A third message that is accepted was made by the receiver in answer to the
second message with the saved nonce. -/
theorem authenticated_answers (hpast : GenuinePast m aesOf macKey t s)
    {env : PicoEnv} {hs3 : Bytes 80} {plain : Bytes 32}
    (hopen : openHs3 m hs3 s.1 = some plain)
    (hok : hs3Ok plain s.1.savedPicoNonce = true)
    (hideal : ∀ x ∈ deliveredTag s (.inl (env, .uart (.hs3 hs3))),
      m.sstHmacSha256Ex x.1 x.2.1 = some x.2.2 → (x.1, x.2.1) ∈ macs t) :
    plainSecond plain = s.1.savedPicoNonce ∧
      ∃ key e hs2, .inr (.hs2Verified key e hs2 hs3.toList) ∈ t ∧
        key.macKey = macKey ∧
        .inl (.hs2Sent macKey e s.1.savedPicoNonce hs2) ∈ t := by
  obtain ⟨hmac, hdec⟩ := openHs3_spec m hopen
  simp only [hs3Ok, Bool.and_eq_true, beq_iff_eq] at hok
  obtain ⟨⟨-, hind⟩, hsecond⟩ := hok
  refine ⟨hsecond, ?_⟩
  have hmem := hideal _ rfl hmac
  rw [hpast.cipher] at hdec
  rw [hpast.mac] at hmac hmem
  rcases blob_origin hpast.genuine hmem hmac hdec with
    ⟨e, np, hsent, rfl⟩ | ⟨key, e, hs2, np, hver, rfl, rfl, plain2, hdec2, hnp⟩
  · -- a second message has another indicator
    rw [plainIndicator_pad] at hind
    exact absurd hind (by decide)
  · obtain ⟨np', hsent⟩ := hpast.answers _ _ _ _ hver
    obtain ⟨-, hdec'⟩ := hpast.genuine _ hsent
    rw [hdec2] at hdec'
    rw [Option.some.inj hdec', plainFirst_pad] at hnp
    rw [plainSecond_pad] at hsecond
    subst hnp hsecond
    exact ⟨key, e, hs2, hver, rfl, hsent⟩

/-- The past grows by genuine messages, sent under the sender's key and answering
what was sent. -/
theorem GenuinePast.extend (h : GenuinePast m aesOf macKey t s)
    {out : List LinkOut} {s' : Pico × Dash}
    (hcipher : s'.1.sessionKey = s.1.sessionKey)
    (hmac : s'.1.sessionMacKey = s.1.sessionMacKey)
    (hpaired : aesOf s'.2.sKey.macKey = s'.2.sKey.aesKey)
    (hgenuine : ∀ o ∈ out, Genuine m aesOf o)
    (hsender : ∀ mk e np hs2, .inl (.hs2Sent mk e np hs2) ∈ out → mk = macKey)
    (hanswers : ∀ key e hs2 hs3, .inr (.hs2Verified key e hs2 hs3) ∈ out →
      ∃ np, .inl (.hs2Sent key.macKey e np hs2) ∈ t) :
    GenuinePast m aesOf macKey (t ++ out) s' := by
  refine ⟨hcipher.trans h.cipher, hmac.trans h.mac, hpaired, ?_, ?_, ?_⟩
  · intro o ho
    rcases List.mem_append.mp ho with ho | ho
    · exact h.genuine o ho
    · exact hgenuine o ho
  · intro mk e np hs2 ho
    rcases List.mem_append.mp ho with ho | ho
    · exact h.sender mk e np hs2 ho
    · exact hsender mk e np hs2 ho
  · intro key e hs2 hs3 ho
    have hsent : ∃ np, .inl (.hs2Sent key.macKey e np hs2) ∈ t := by
      rcases List.mem_append.mp ho with ho | ho
      · exact h.answers key e hs2 hs3 ho
      · exact hanswers key e hs2 hs3 ho
    obtain ⟨np, hsent⟩ := hsent
    exact ⟨np, List.mem_append_left _ hsent⟩

/-- What the sender does in one step: its keys stay, and what it sends is genuine
and under its key. -/
theorem genuine_picoStep (hm : m.Lawful)
    (hpast : GenuinePast m aesOf macKey t s) {env : PicoEnv} {ev : PicoEvent}
    (hkeeps : keepsKeys ev) :
    (picoStep m hse s.1 env ev).1.sessionKey = s.1.sessionKey ∧
      (picoStep m hse s.1 env ev).1.sessionMacKey = s.1.sessionMacKey ∧
      ∀ o ∈ (picoStep m hse s.1 env ev).2, Genuine m aesOf (.inl o) ∧
        ∀ mk e np hs2, o = .hs2Sent mk e np hs2 → mk = macKey := by
  cases handshakeEffect_picoStep m hse s.1 env ev hkeeps with
  | quiet same silent keyless =>
      refine ⟨same.key, same.macKey, ?_⟩
      intro o ho
      refine ⟨genuine_of_silent silent ho, ?_⟩
      rintro mk e np hs2 rfl
      exact absurd rfl ((silent _ ho).1 mk e np hs2)
  | answered hs1 e hs2 event opened built result =>
      rw [result]
      refine ⟨rfl, rfl, ?_⟩
      intro o ho
      obtain rfl := List.mem_singleton.mp ho
      obtain ⟨hmac, henc⟩ := buildHs2_spec m built
      refine ⟨⟨hmac, ?_⟩, ?_⟩
      · rw [hpast.mac, ← hpast.cipher]
        exact hm.cbc_decrypt _ _ _ _ henc
      · rintro mk e np hs2 ⟨⟩
        exact hpast.mac
  | forgot result =>
      rw [result]
      refine ⟨rfl, rfl, ?_⟩
      intro o ho
      exact absurd ho List.not_mem_nil
  | authenticated hs3 plain event opened ok result =>
      rw [result]
      refine ⟨rfl, rfl, ?_⟩
      intro o ho
      obtain rfl := List.mem_singleton.mp ho
      exact ⟨trivial, by simp⟩

theorem GenuinePast.step (hm : m.Lawful) (hapi : api.Lawful m)
    (hpast : GenuinePast m aesOf macKey t s) (i : LinkIn)
    (hrules : HandshakeRules m hse api aesOf t s i) :
    GenuinePast m aesOf macKey (t ++ ((lifiLink m hse api).step s i).2)
      ((lifiLink m hse api).step s i).1 := by
  obtain ⟨hkeeps, -, hideal, hpaired⟩ := hrules
  rcases i with ⟨env, ev⟩ | ⟨env, ev⟩
  · obtain ⟨hkey, hmac, hout⟩ := genuine_picoStep hm hpast hkeeps
    refine hpast.extend hkey hmac hpaired ?_ ?_ ?_
    · intro o ho
      obtain ⟨o, ho', rfl⟩ := List.mem_map.mp ho
      exact (hout o ho').1
    · intro mk e np hs2 ho
      obtain ⟨o, ho', heq⟩ := List.mem_map.mp ho
      exact (hout o ho').2 mk e np hs2 (Sum.inl.inj heq)
    · intro key e hs2 hs3 ho
      obtain ⟨o, -, heq⟩ := List.mem_map.mp ho
      cases heq
  · have hexplained := explained_dashStep m api s.2 env ev
    refine hpast.extend rfl rfl hpaired ?_ ?_ ?_
    · intro o ho
      obtain ⟨o, ho', rfl⟩ := List.mem_map.mp ho
      exact genuine_dashOut hm hapi hpast.paired hpaired (hexplained o ho')
    · intro mk e np hs2 ho
      obtain ⟨o, -, heq⟩ := List.mem_map.mp ho
      cases heq
    · intro key e hs2 hs3 ho
      obtain ⟨o, ho', heq⟩ := List.mem_map.mp ho
      obtain rfl := Sum.inr.inj heq
      exact verified_answers hapi hpast (hexplained _ ho') hideal

end

/-! ## Nonces over a run -/

theorem picoNonces_append (t u : List LinkOut) :
    picoNonces (t ++ u) = picoNonces t ++ picoNonces u :=
  List.filterMap_append

theorem authenticated_append (t u : List LinkOut) :
    authenticated (t ++ u) = authenticated t ++ authenticated u :=
  List.filterMap_append

theorem picoNonces_of_silent {out : List PicoOut} (h : HandshakeSilent out) :
    picoNonces (out.map Sum.inl) = [] := by
  apply filterMap_map_eq_nil
  intro o ho
  cases o with
  | hs2Sent macKey e np hs2 => exact absurd rfl ((h _ ho).1 macKey e np hs2)
  | _ => rfl

theorem authenticated_of_silent {out : List PicoOut} (h : HandshakeSilent out) :
    authenticated (out.map Sum.inl) = [] := by
  apply filterMap_map_eq_nil
  intro o ho
  cases o with
  | mutualAuthOk np hs3 => exact absurd rfl ((h _ ho).2 np hs3)
  | _ => rfl

theorem picoNonces_map_inr (out : List DashOut) :
    picoNonces (out.map Sum.inr) = [] := by
  apply filterMap_map_eq_nil
  intro o _
  rfl

theorem authenticated_map_inr (out : List DashOut) :
    authenticated (out.map Sum.inr) = [] := by
  apply filterMap_map_eq_nil
  intro o _
  rfl

/-- Nonces are sent once, the saved nonce is the last one sent and not used up,
and a success uses up a nonce that its message echoes. -/
structure NoncesOnce (m : Mbedtls) (key : Bytes 16) (t : List LinkOut)
    (s : Pico × Dash) : Prop where
  nodup : (picoNonces t).Nodup
  nonzero : Bytes.zero 8 ∉ picoNonces t
  saved : s.1.savedPicoNonce ∈ picoNonces t →
    (picoNonces t).getLast? = some s.1.savedPicoNonce ∧
      s.1.savedPicoNonce ∉ (authenticated t).map Prod.fst
  spent : ∀ x ∈ authenticated t, x.1 ∈ picoNonces t
  once : ((authenticated t).map Prod.fst).Nodup
  echoed : ∀ x ∈ authenticated t, ∃ plain,
    m.sstAes128CbcDecrypt key (blobIv x.2) (blobCtext x.2) = some plain ∧
      plainSecond plain = x.1

section

variable {macKey : Bytes 32} {t : List LinkOut} {s : Pico × Dash}

/-- A step that neither sends a nonce nor uses one up. -/
theorem NoncesOnce.frame {key : Bytes 16} (h : NoncesOnce m key t s)
    {out : List LinkOut} {s' : Pico × Dash} (hnonces : picoNonces out = [])
    (hauth : authenticated out = [])
    (hsaved : s'.1.savedPicoNonce = s.1.savedPicoNonce ∨
      s'.1.savedPicoNonce = Bytes.zero 8) :
    NoncesOnce m key (t ++ out) s' := by
  have hn : picoNonces (t ++ out) = picoNonces t := by
    rw [picoNonces_append, hnonces, List.append_nil]
  have ha : authenticated (t ++ out) = authenticated t := by
    rw [authenticated_append, hauth, List.append_nil]
  refine ⟨hn ▸ h.nodup, hn ▸ h.nonzero, ?_, ?_, ha ▸ h.once, ha ▸ h.echoed⟩
  · rw [hn, ha]
    rcases hsaved with heq | heq
    · rw [heq]
      exact h.saved
    · intro hzero
      rw [heq] at hzero
      exact absurd hzero h.nonzero
  · rw [hn, ha]
    exact h.spent

/-- A step that sends a new nonce and saves it. -/
theorem NoncesOnce.sent {key : Bytes 16} (h : NoncesOnce m key t s)
    {out : List LinkOut} {s' : Pico × Dash}
    (hnonces : picoNonces out = [s'.1.savedPicoNonce])
    (hauth : authenticated out = [])
    (hzero : s'.1.savedPicoNonce ≠ Bytes.zero 8)
    (hnew : s'.1.savedPicoNonce ∉ picoNonces t) :
    NoncesOnce m key (t ++ out) s' := by
  have hn : picoNonces (t ++ out) = picoNonces t ++ [s'.1.savedPicoNonce] := by
    rw [picoNonces_append, hnonces]
  have ha : authenticated (t ++ out) = authenticated t := by
    rw [authenticated_append, hauth, List.append_nil]
  refine ⟨?_, ?_, ?_, ?_, ha ▸ h.once, ha ▸ h.echoed⟩
  · rw [hn, List.nodup_append']
    exact ⟨h.nodup, List.nodup_singleton _, by simpa using hnew⟩
  · rw [hn, List.mem_append, List.mem_singleton, not_or]
    exact ⟨h.nonzero, hzero.symm⟩
  · rw [hn, ha]
    intro _
    refine ⟨by simp, ?_⟩
    -- a nonce that was used up had been sent before
    intro hmem
    obtain ⟨x, hx, hfst⟩ := List.mem_map.mp hmem
    exact hnew (hfst ▸ h.spent x hx)
  · rw [hn, ha]
    intro x hx
    exact List.mem_append_left _ (h.spent x hx)

/-- A step that uses up the saved nonce, which the third message echoes. -/
theorem NoncesOnce.used {key : Bytes 16} (h : NoncesOnce m key t s)
    {out : List LinkOut} {s' : Pico × Dash} {hs3 : Bytes 80} {plain : Bytes 32}
    (hnonces : picoNonces out = [])
    (hauth : authenticated out = [(s.1.savedPicoNonce, hs3)])
    (hsaved : s'.1.savedPicoNonce = Bytes.zero 8)
    (hsent : s.1.savedPicoNonce ∈ picoNonces t)
    (hdec : m.sstAes128CbcDecrypt key (blobIv hs3) (blobCtext hs3) = some plain)
    (hecho : plainSecond plain = s.1.savedPicoNonce) :
    NoncesOnce m key (t ++ out) s' := by
  have hn : picoNonces (t ++ out) = picoNonces t := by
    rw [picoNonces_append, hnonces, List.append_nil]
  have ha : authenticated (t ++ out) =
      authenticated t ++ [(s.1.savedPicoNonce, hs3)] := by
    rw [authenticated_append, hauth]
  obtain ⟨-, hunused⟩ := h.saved hsent
  refine ⟨hn ▸ h.nodup, hn ▸ h.nonzero, ?_, ?_, ?_, ?_⟩
  · rw [hn, hsaved]
    intro hzero
    exact absurd hzero h.nonzero
  · rw [hn, ha]
    intro x hx
    rcases List.mem_append.mp hx with hx | hx
    · exact h.spent x hx
    · rw [List.mem_singleton.mp hx]
      exact hsent
  · rw [ha, List.map_append, List.nodup_append']
    exact ⟨h.once, List.nodup_singleton _, by simpa using hunused⟩
  · rw [ha]
    intro x hx
    rcases List.mem_append.mp hx with hx | hx
    · exact h.echoed x hx
    · rw [List.mem_singleton.mp hx]
      exact ⟨plain, hdec, hecho⟩

theorem NoncesOnce.step (hpast : GenuinePast m aesOf macKey t s)
    (h : NoncesOnce m (aesOf macKey) t s) (i : LinkIn)
    (hrules : HandshakeRules m hse api aesOf t s i) :
    NoncesOnce m (aesOf macKey) (t ++ ((lifiLink m hse api).step s i).2)
      ((lifiLink m hse api).step s i).1 := by
  obtain ⟨hkeeps, hfresh, hideal, -⟩ := hrules
  rcases i with ⟨env, ev⟩ | ⟨env, ev⟩
  · have hstep : (lifiLink m hse api).step s (.inl (env, ev)) =
        (((picoStep m hse s.1 env ev).1, s.2),
          (picoStep m hse s.1 env ev).2.map Sum.inl) := rfl
    rw [hstep] at hfresh ⊢
    cases handshakeEffect_picoStep m hse s.1 env ev hkeeps with
    | quiet same silent keyless =>
        exact h.frame (picoNonces_of_silent silent)
          (authenticated_of_silent silent) (Or.inl same.saved)
    | forgot result =>
        rw [result]
        exact h.frame rfl rfl (Or.inr rfl)
    | answered hs1 e hs2 event opened built result =>
        rw [result] at hfresh ⊢
        obtain ⟨hzero, hnew⟩ := hfresh env.hs2.picoNonce (List.mem_singleton_self _)
        exact h.sent rfl rfl hzero hnew
    | authenticated hs3 plain event opened ok result =>
        subst event
        obtain ⟨hecho, key, e, hs2, -, -, hsent⟩ :=
          authenticated_answers hpast opened ok hideal
        obtain ⟨-, hdec⟩ := openHs3_spec m opened
        rw [hpast.cipher] at hdec
        rw [result]
        exact h.used rfl rfl rfl (List.mem_filterMap.mpr ⟨_, hsent, rfl⟩) hdec hecho
  · exact h.frame (picoNonces_map_inr _) (authenticated_map_inr _) (Or.inl rfl)

end

/-! ## Agreement -/

/-- In a list without repetitions nothing follows what is also the last element. -/
theorem nil_of_getLast_eq {α : Type*} {l r : List α} {a : α}
    (hnodup : (l ++ a :: r).Nodup) (hlast : (l ++ a :: r).getLast? = some a) :
    r = [] := by
  cases r with
  | nil => rfl
  | cons b r =>
      rw [List.getLast?_append_cons, List.getLast?_cons_cons] at hlast
      have hmem : a ∈ b :: r := List.mem_of_getLast? hlast
      have hcons := (List.nodup_append'.mp hnodup).2.1
      exact absurd hmem (List.nodup_cons.mp hcons).1

/-- Both sides have their keys: a MAC key that comes with its cipher key. -/
def KeysInstalled (aesOf : Bytes 32 → Bytes 16) (s : Pico × Dash) : Prop :=
  s.1.sessionKey = aesOf s.1.sessionMacKey ∧
    aesOf s.2.sKey.macKey = s.2.sKey.aesKey

section

variable {s₀ s : Pico × Dash} {t : List LinkOut}

theorem handshake_invariant (hm : m.Lawful) (hapi : api.Lawful m)
    (hkeys : KeysInstalled aesOf s₀)
    (h : (lifiLink m hse api).Reach (HandshakeRules m hse api aesOf) s₀ t s) :
    GenuinePast m aesOf s₀.1.sessionMacKey t s ∧
      NoncesOnce m (aesOf s₀.1.sessionMacKey) t s := by
  apply h.invariant (P := fun t s => GenuinePast m aesOf s₀.1.sessionMacKey t s ∧
    NoncesOnce m (aesOf s₀.1.sessionMacKey) t s)
  · obtain ⟨hkey, hpaired⟩ := hkeys
    refine ⟨⟨hkey, rfl, hpaired, by simp, by simp, by simp⟩, ?_⟩
    exact ⟨List.nodup_nil, List.not_mem_nil, by simp [picoNonces],
      by simp [authenticated], List.nodup_nil, by simp [authenticated]⟩
  · rintro t s i ⟨hpast, honce⟩ hrules
    exact ⟨hpast.step hm hapi i hrules, honce.step hpast i hrules⟩

/-- A second message is sent in answer to a first one that the receiver made with
the same nonce. -/
theorem sent_after_made (hm : m.Lawful) (hapi : api.Lawful m)
    (hkeys : KeysInstalled aesOf s₀)
    (h : (lifiLink m hse api).Reach (HandshakeRules m hse api aesOf) s₀ t s)
    {early late : List LinkOut} {mk : Bytes 32} {e np : Bytes 8} {hs2 : Bytes 80}
    (ht : t = early ++ .inl (.hs2Sent mk e np hs2) :: late) :
    ∃ key hs1, .inr (.hs1Made key e hs1) ∈ early ∧ key.macKey = mk := by
  obtain ⟨t₁, s₁, i, pre, post, hreach, ⟨hkeeps, -, hideal, -⟩, hout, rfl⟩ :=
    h.emitted ht
  obtain ⟨hpast, -⟩ := handshake_invariant hm hapi hkeys hreach
  obtain ⟨env, ev, rfl, hmem⟩ :=
    inl_mem_lifiLink (hout ▸ List.mem_append_right _ List.mem_cons_self)
  cases handshakeEffect_picoStep m hse s₁.1 env ev hkeeps with
  | quiet same silent keyless => exact absurd rfl ((silent _ hmem).1 mk e np hs2)
  | forgot result =>
      rw [result] at hmem
      exact absurd hmem List.not_mem_nil
  | authenticated hs3 plain event opened ok result =>
      rw [result] at hmem
      cases List.mem_singleton.mp hmem
  | answered hs1 e' hs2' event opened built result =>
      rw [result] at hmem
      cases List.mem_singleton.mp hmem
      subst event
      obtain ⟨hmac, plain, hdec, rfl⟩ := openHs1_spec m opened
      rw [hpast.cipher, ← hpast.mac] at hdec
      obtain ⟨key, sent, hmade, hkey⟩ :=
        hs1_origin hpast.genuine (hideal _ rfl hmac) hdec
      exact ⟨key, sent, List.mem_append_left _ hmade, hkey⟩

/-- A second message is verified after the sender sent it, in answer to a first one
with the entity nonce. -/
theorem verified_after_sent (hm : m.Lawful) (hapi : api.Lawful m)
    (hkeys : KeysInstalled aesOf s₀)
    (h : (lifiLink m hse api).Reach (HandshakeRules m hse api aesOf) s₀ t s)
    {before after : List LinkOut} {key : SessionKey} {e : Bytes 8}
    {hs2 : Bytes 80} {hs3 : List UInt8}
    (ht : t = before ++ .inr (.hs2Verified key e hs2 hs3) :: after) :
    ∃ np early late, before = early ++ .inl (.hs2Sent key.macKey e np hs2) :: late ∧
      ∃ key' hs1, .inr (.hs1Made key' e hs1) ∈ early ∧
        key'.macKey = key.macKey := by
  obtain ⟨t₁, s₁, i, pre, post, hreach, ⟨-, -, hideal, -⟩, hout, rfl⟩ :=
    h.emitted ht
  obtain ⟨hpast, -⟩ := handshake_invariant hm hapi hkeys hreach
  obtain ⟨env, ev, rfl, hmem⟩ :=
    inr_mem_lifiLink (hout ▸ List.mem_append_right _ List.mem_cons_self)
  obtain ⟨np, hsent⟩ := verified_answers hapi hpast
    (explained_dashStep m api s₁.2 env ev _ hmem) hideal
  obtain ⟨early, late, rfl⟩ := List.append_of_mem hsent
  refine ⟨np, early, late ++ pre, by simp, ?_⟩
  exact sent_after_made hm hapi hkeys hreach rfl

/-- A success comes after the receiver made that third message in answer to the
last second message sent. -/
theorem authenticated_after_verified (hm : m.Lawful) (hapi : api.Lawful m)
    (hkeys : KeysInstalled aesOf s₀)
    (h : (lifiLink m hse api).Reach (HandshakeRules m hse api aesOf) s₀ t s)
    {before after : List LinkOut} {np : Bytes 8} {hs3 : Bytes 80}
    (ht : t = before ++ .inl (.mutualAuthOk np hs3) :: after) :
    ∃ e hs2 early late, before =
        early ++ .inl (.hs2Sent s₀.1.sessionMacKey e np hs2) :: late ∧
      picoNonces late = [] ∧
      ∃ key, .inr (.hs2Verified key e hs2 hs3.toList) ∈ late ∧
        key.macKey = s₀.1.sessionMacKey := by
  obtain ⟨t₁, s₁, i, pre, post, hreach, ⟨hkeeps, -, hideal, -⟩, hout, rfl⟩ :=
    h.emitted ht
  obtain ⟨hpast, honce⟩ := handshake_invariant hm hapi hkeys hreach
  obtain ⟨env, ev, rfl, hmem⟩ :=
    inl_mem_lifiLink (hout ▸ List.mem_append_right _ List.mem_cons_self)
  cases handshakeEffect_picoStep m hse s₁.1 env ev hkeeps with
  | quiet same silent keyless => exact absurd rfl ((silent _ hmem).2 np hs3)
  | forgot result =>
      rw [result] at hmem
      exact absurd hmem List.not_mem_nil
  | answered hs1 e' hs2' event opened built result =>
      rw [result] at hmem
      cases List.mem_singleton.mp hmem
  | authenticated hs3' plain event opened ok result =>
      rw [result] at hmem
      cases List.mem_singleton.mp hmem
      subst event
      have hpre : pre = [] := by
        have hstep : ((lifiLink m hse api).step s₁ (.inl (env, .uart (.hs3 hs3)))).2 =
            (picoStep m hse s₁.1 env (.uart (.hs3 hs3))).2.map Sum.inl := rfl
        have hlen := congrArg List.length (hstep.symm.trans hout)
        rw [result] at hlen
        simp only [List.map_cons, List.map_nil, List.length_cons,
          List.length_nil, List.length_append] at hlen
        exact List.length_eq_zero_iff.mp (by omega)
      subst hpre
      rw [List.append_nil]
      obtain ⟨-, key, e, hs2, hver, hkey, hsent⟩ :=
        authenticated_answers hpast opened ok hideal
      obtain ⟨b, a, rfl⟩ := List.append_of_mem hver
      obtain ⟨np', early, late, rfl, -⟩ :=
        verified_after_sent hm hapi hkeys hreach rfl
      rw [← hkey] at hsent
      have hnp : np' = s₁.1.savedPicoNonce :=
        nonce_of_hs2Sent hpast.genuine (by simp) hsent
      subst hnp
      obtain ⟨hlast, -⟩ :=
        honce.saved (List.mem_filterMap.mpr ⟨_, hsent, rfl⟩)
      have hnodup := honce.nodup
      rw [List.append_assoc, List.cons_append, picoNonces_append] at hlast hnodup
      refine ⟨e, hs2, early, late ++ .inr (.hs2Verified key e hs2 hs3.toList) :: a,
        ?_, nil_of_getLast_eq hnodup hlast, key, by simp, hkey⟩
      rw [List.append_assoc, List.cons_append, hkey]

/-- No message of the receiver makes the sender report success twice. -/
theorem authenticated_messages_nodup (hm : m.Lawful) (hapi : api.Lawful m)
    (hkeys : KeysInstalled aesOf s₀)
    (h : (lifiLink m hse api).Reach (HandshakeRules m hse api aesOf) s₀ t s) :
    ((authenticated t).map Prod.snd).Nodup := by
  obtain ⟨-, honce⟩ := handshake_invariant hm hapi hkeys h
  -- the nonce of a success can be read off its message
  let nonceOf (hs3 : Bytes 80) : Bytes 8 :=
    match m.sstAes128CbcDecrypt (aesOf s₀.1.sessionMacKey) (blobIv hs3)
      (blobCtext hs3) with
    | some plain => plainSecond plain
    | none => Bytes.zero 8
  have hnonce : (authenticated t).map Prod.fst =
      ((authenticated t).map Prod.snd).map nonceOf := by
    rw [List.map_map]
    apply List.map_congr_left
    intro x hx
    obtain ⟨plain, hdec, hecho⟩ := honce.echoed x hx
    simp only [Function.comp_apply, nonceOf, hdec, hecho]
  have hdistinct := honce.once
  rw [hnonce] at hdistinct
  exact hdistinct.of_map _

/-- Agreement: a success of the sender comes after the third message, which the
receiver made in answer to the last second message; successes share neither nonce
nor message; and a verification of the receiver comes after the second message,
which the sender made in answer to a first one with the entity nonce. -/
theorem handshake_agreement (hm : m.Lawful) (hapi : api.Lawful m)
    (hkeys : KeysInstalled aesOf s₀)
    (h : (lifiLink m hse api).Reach (HandshakeRules m hse api aesOf) s₀ t s) :
    (∀ before after np hs3, t = before ++ .inl (.mutualAuthOk np hs3) :: after →
      ∃ e hs2 early late, before =
          early ++ .inl (.hs2Sent s₀.1.sessionMacKey e np hs2) :: late ∧
        picoNonces late = [] ∧
        ∃ key, .inr (.hs2Verified key e hs2 hs3.toList) ∈ late ∧
          key.macKey = s₀.1.sessionMacKey) ∧
    ((authenticated t).map Prod.fst).Nodup ∧
    ((authenticated t).map Prod.snd).Nodup ∧
    ∀ before after key e hs2 hs3,
      t = before ++ .inr (.hs2Verified key e hs2 hs3) :: after →
      ∃ np early late,
        before = early ++ .inl (.hs2Sent key.macKey e np hs2) :: late ∧
        ∃ key' hs1, .inr (.hs1Made key' e hs1) ∈ early ∧
          key'.macKey = key.macKey := by
  refine ⟨?_, ?_, ?_, ?_⟩
  · intro before after np hs3 ht
    exact authenticated_after_verified hm hapi hkeys h ht
  · obtain ⟨-, honce⟩ := handshake_invariant hm hapi hkeys h
    exact honce.once
  · exact authenticated_messages_nodup hm hapi hkeys h
  · intro before after key e hs2 hs3 ht
    exact verified_after_sent hm hapi hkeys h ht

end

/-! ## A handshake -/

def sharedKey : SessionKey where
  keyId := List.Vector.replicate 8 5
  cipherKey := List.Vector.replicate 32 7
  macKey := List.Vector.replicate 32 9

/-- Both sides hold the key. -/
def bothKeyed : Pico × Dash :=
  ({ Pico.off Flash.erased with
      sessionKey := sharedKey.aesKey
      sessionMacKey := sharedKey.macKey
      sessionKeyId := sharedKey.keyId
      bootSalt := List.Vector.replicate 8 1 },
    Dash.start true (some [sharedKey]) (List.Vector.replicate 64 (Bytes.zero 12)))

/-- The second and the third message of the run below. -/
def runHs2 : Bytes 80 :=
  hsBlob (Bytes.zero 16)
    (Mbedtls.padPkcs7 (hsPlain 2 (List.Vector.replicate 8 2)
      (List.Vector.replicate 8 1))) sharedKey.macKey

def runHs3 : Bytes 80 :=
  hsBlob (Bytes.zero 16)
    (Mbedtls.padPkcs7 (hsPlain 3 (List.Vector.replicate 8 1)
      (List.Vector.replicate 8 2))) sharedKey.macKey

/-- Key `2`, the three messages, and a replay of the third. -/
def handshakeRun : List LinkIn :=
  let dashEnv : DashEnv :=
    { DashEnv.bare with hs := ⟨List.Vector.replicate 8 1, Bytes.zero 16⟩ }
  let picoEnv : PicoEnv :=
    { PicoEnv.salted with hs2 := ⟨List.Vector.replicate 8 2, Bytes.zero 16⟩ }
  [.inr (dashEnv, .key .two),
    .inl (picoEnv, .uart (.hs1 (hs1Message sharedKey.keyId (Bytes.zero 16)
      (Mbedtls.padPkcs7 (hs1Plain (List.Vector.replicate 8 1)))
      sharedKey.macKey))),
    .inr (dashEnv, .uart (.frame (.sstHs2 runHs2))),
    .inl (picoEnv, .uart (.hs3 runHs3)),
    .inl (picoEnv, .uart (.hs3 runHs3))]

/-- The link with readable primitives. -/
def openLink : Machine (Pico × Dash) LinkIn LinkOut :=
  lifiLink Mbedtls.transparent .idle (SstApi.reference Mbedtls.transparent)

/-- The sender reports success once. -/
theorem handshake_agreement_once :
    authenticated (openLink.trace bothKeyed handshakeRun) =
        [(List.Vector.replicate 8 2, runHs3)] ∧
      ((authenticated (openLink.trace bothKeyed handshakeRun)).map
        Prod.snd).Nodup := by
  refine ⟨by decide +kernel, ?_⟩
  have hreach : openLink.Reach
      (HandshakeRules Mbedtls.transparent .idle
        (SstApi.reference Mbedtls.transparent) fun _ => sharedKey.aesKey)
      bothKeyed (openLink.trace bothKeyed handshakeRun)
      (openLink.run bothKeyed handshakeRun) := by
    apply Machine.reach_run
    decide +kernel
  exact (handshake_agreement Mbedtls.lawful_transparent
    (SstApi.lawful_reference _) ⟨rfl, rfl⟩ hreach).2.2.1

end LifiAuth
