import LifiAuth.Protocol.Constants
import LifiAuth.Protocol.Crypto

/-!
# Layout of the handshake messages

`SST_HS1` is `key_id | iv | ctext | mac`, and `SST_HS2` and `SST_HS3` are
`iv | ctext | mac`; the plaintexts are `[1][entity nonce]`,
`[2][pico nonce][entity nonce]` and `[3][entity nonce][pico nonce]` with PKCS7
padding.
-/

namespace LifiAuth

/-! ## The first message -/

def hs1Message (keyId : Bytes 8) (iv ctext : Bytes 16) (mac : Bytes 32) :
    Bytes 72 :=
  ((keyId.append iv).append ctext).append mac

def hs1KeyId (hs1 : Bytes 72) : Bytes 8 := hs1.slice 0 8 (by decide)
def hs1Iv (hs1 : Bytes 72) : Bytes 16 := hs1.slice 8 16 (by decide)
def hs1Ctext (hs1 : Bytes 72) : Bytes 16 := hs1.slice 24 16 (by decide)
def hs1Mac (hs1 : Bytes 72) : Bytes 32 := hs1.slice 40 32 (by decide)

/-- The bytes under the MAC. -/
def hs1Body (hs1 : Bytes 72) : Bytes 32 := (hs1Iv hs1).append (hs1Ctext hs1)

section

variable (keyId : Bytes 8) (iv ctext : Bytes 16) (mac : Bytes 32)

theorem toList_hs1Message : (hs1Message keyId iv ctext mac).toList =
    keyId.toList ++ (iv.toList ++ (ctext.toList ++ mac.toList)) := by
  simp only [hs1Message, Bytes.toList_append, List.append_assoc]

@[simp] theorem hs1KeyId_hs1Message :
    hs1KeyId (hs1Message keyId iv ctext mac) = keyId :=
  Bytes.slice_eq_of_toList [] keyId _ 0 _ (toList_hs1Message ..) rfl

@[simp] theorem hs1Iv_hs1Message :
    hs1Iv (hs1Message keyId iv ctext mac) = iv :=
  Bytes.slice_eq_of_toList keyId.toList iv _ 8 _ (toList_hs1Message ..) (by simp)

@[simp] theorem hs1Ctext_hs1Message :
    hs1Ctext (hs1Message keyId iv ctext mac) = ctext :=
  Bytes.slice_eq_of_toList (keyId.toList ++ iv.toList) ctext _ 24 _
    (by rw [toList_hs1Message, List.append_assoc]) (by simp)

@[simp] theorem hs1Mac_hs1Message :
    hs1Mac (hs1Message keyId iv ctext mac) = mac :=
  Bytes.slice_eq_of_toList (keyId.toList ++ (iv.toList ++ ctext.toList)) mac
    [] 40 _
    (by simp [toList_hs1Message]) (by simp)

end

/-! ## The second and the third message -/

def hsBlob (iv : Bytes 16) (ctext mac : Bytes 32) : Bytes 80 :=
  (iv.append ctext).append mac

def blobIv (blob : Bytes 80) : Bytes 16 := blob.slice 0 16 (by decide)
def blobCtext (blob : Bytes 80) : Bytes 32 := blob.slice 16 32 (by decide)
def blobMac (blob : Bytes 80) : Bytes 32 := blob.slice 48 32 (by decide)

/-- The bytes under the MAC. -/
def blobBody (blob : Bytes 80) : Bytes 48 :=
  (blobIv blob).append (blobCtext blob)

section

variable (iv : Bytes 16) (ctext mac : Bytes 32)

theorem toList_hsBlob : (hsBlob iv ctext mac).toList =
    iv.toList ++ (ctext.toList ++ mac.toList) := by
  simp only [hsBlob, Bytes.toList_append, List.append_assoc]

@[simp] theorem blobIv_hsBlob : blobIv (hsBlob iv ctext mac) = iv :=
  Bytes.slice_eq_of_toList [] iv _ 0 _ (toList_hsBlob ..) rfl

@[simp] theorem blobCtext_hsBlob : blobCtext (hsBlob iv ctext mac) = ctext :=
  Bytes.slice_eq_of_toList iv.toList ctext _ 16 _ (toList_hsBlob ..) (by simp)

@[simp] theorem blobMac_hsBlob : blobMac (hsBlob iv ctext mac) = mac :=
  Bytes.slice_eq_of_toList (iv.toList ++ ctext.toList) mac [] 48 _
    (by simp [toList_hsBlob]) (by simp)

/-- The bytes under the MAC of an encoded first message. -/
theorem take_drop_hs1Message (keyId : Bytes 8) (iv ctext : Bytes 16)
    (mac : Bytes 32) :
    ((hs1Message keyId iv ctext mac).toList.drop 8).take 32 =
      (iv.append ctext).toList := by
  have hkeyId : keyId.toList.length = 8 := keyId.toList_length
  have hbody : (iv.append ctext).toList.length = 32 :=
    (iv.append ctext).toList_length
  rw [toList_hs1Message, List.drop_left' hkeyId, ← List.append_assoc,
    ← Bytes.toList_append, List.take_left' hbody]

/-- A blob is determined by its parts. -/
theorem hsBlob_eta (blob : Bytes 80) :
    hsBlob (blobIv blob) (blobCtext blob) (blobMac blob) = blob := by
  apply Bytes.ext_toList
  rw [toList_hsBlob, blobIv, blobCtext, blobMac, Bytes.toList_slice,
    Bytes.toList_slice, Bytes.toList_slice]
  have hmac : (blob.toList.drop 48).take 32 = blob.toList.drop 48 :=
    List.take_of_length_le (by simp)
  have hctext : (blob.toList.drop 16).take 32 ++ blob.toList.drop 48 =
      blob.toList.drop 16 := by
    rw [← List.drop_drop (i := 32) (j := 16), List.take_append_drop]
  rw [hmac, hctext, List.drop_zero, List.take_append_drop]

/-- The bytes under the MAC come first. -/
theorem take_toList_blob (blob : Bytes 80) :
    blob.toList.take 48 = (blobBody blob).toList := by
  have hbody : (blobBody blob).toList.length = 48 := (blobBody blob).toList_length
  conv_lhs => rw [← hsBlob_eta blob]
  rw [toList_hsBlob, ← List.append_assoc, ← Bytes.toList_append]
  exact List.take_left' hbody

theorem iv_ctext_of_append_eq {n : ℕ} {iv iv' : Bytes 16} {ctext ctext' : Bytes n}
    (h : (iv.append ctext).toList = (iv'.append ctext').toList) :
    iv = iv' ∧ ctext = ctext' := by
  rw [Bytes.toList_append, Bytes.toList_append] at h
  have hlen : iv.toList.length = iv'.toList.length := by
    rw [iv.toList_length, iv'.toList_length]
  obtain ⟨hiv, hctext⟩ := List.append_inj h hlen
  exact ⟨Bytes.ext_toList hiv, Bytes.ext_toList hctext⟩

theorem blob_ext {blob blob' : Bytes 80}
    (hbody : (blobBody blob).toList = (blobBody blob').toList)
    (hmac : blobMac blob = blobMac blob') : blob = blob' := by
  obtain ⟨hiv, hctext⟩ := iv_ctext_of_append_eq hbody
  rw [← hsBlob_eta blob, hiv, hctext, hmac, hsBlob_eta blob']

end

/-! ## Plaintexts -/

def hs1Plain (entityNonce : Bytes 8) : Bytes 9 :=
  Bytes.append (⟨[1], rfl⟩ : Bytes 1) entityNonce

/-- `[indicator][first nonce][second nonce]`. -/
def hsPlain (indicator : UInt8) (first second : Bytes 8) : Bytes 17 :=
  (Bytes.append (⟨[indicator], rfl⟩ : Bytes 1) first).append second

/-- The fields of a padded 32-byte plaintext. -/
def plainIndicator (plain : Bytes 32) : UInt8 := plain.head
def plainFirst (plain : Bytes 32) : Bytes 8 := plain.slice 1 8 (by decide)
def plainSecond (plain : Bytes 32) : Bytes 8 := plain.slice 9 8 (by decide)

section

variable (indicator : UInt8) (first second : Bytes 8)

theorem toList_padPkcs7_hsPlain :
    (Mbedtls.padPkcs7 (hsPlain indicator first second)).toList =
      [indicator] ++ (first.toList ++ (second.toList ++
        List.replicate 15 15)) := by
  simp only [Mbedtls.padPkcs7, hsPlain, Bytes.toList_append, List.append_assoc]
  rfl

@[simp] theorem plainIndicator_pad :
    plainIndicator (Mbedtls.padPkcs7 (hsPlain indicator first second)) =
      indicator := rfl

@[simp] theorem plainFirst_pad :
    plainFirst (Mbedtls.padPkcs7 (hsPlain indicator first second)) = first :=
  Bytes.slice_eq_of_toList [indicator] first _ 1 _
    (toList_padPkcs7_hsPlain ..) rfl

@[simp] theorem plainSecond_pad :
    plainSecond (Mbedtls.padPkcs7 (hsPlain indicator first second)) = second :=
  Bytes.slice_eq_of_toList ([indicator] ++ first.toList) second _ 9 _
    (by rw [toList_padPkcs7_hsPlain, List.append_assoc]) (by simp)

end

/-- The entity nonce in the 16-byte plaintext of the first message. -/
def hs1EntityNonce (plain : Bytes 16) : Bytes 8 := plain.slice 1 8 (by decide)

@[simp] theorem hs1EntityNonce_pad (entityNonce : Bytes 8) :
    hs1EntityNonce (Mbedtls.padPkcs7 (hs1Plain entityNonce)) = entityNonce := by
  apply Bytes.slice_eq_of_toList [1] entityNonce (List.replicate 7 7)
  · simp only [Mbedtls.padPkcs7, hs1Plain, Bytes.toList_append]
    rfl
  · rfl

end LifiAuth
