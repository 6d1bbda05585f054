import LifiAuth.Support.Bytes

/-!
# Cryptographic primitives

The mbedTLS calls of `src/sst_crypto_embedded.c` are parameters: each returns
`none` where the library reports an error.  What the development assumes of them
is stated as separate properties, so that every result names what it relies on.
The `sst_*` wrappers are those of the source.
-/

namespace LifiAuth

/-- The mbedTLS functions the wrappers call, with the key sizes they are called
with. -/
structure Mbedtls where
  mdHmac : Bytes 32 → List UInt8 → Option (Bytes 32)
  sha256 : List UInt8 → Bytes 32
  aesCryptCbcEncrypt : Bytes 16 → Bytes 16 → {n : ℕ} → Bytes n →
    Option (Bytes n)
  aesCryptCbcDecrypt : Bytes 16 → Bytes 16 → {n : ℕ} → Bytes n →
    Option (Bytes n)
  gcmCryptAndTag : Bytes 16 → Bytes 12 → {n : ℕ} → Bytes n →
    Option (Bytes n × Bytes 16)
  gcmAuthDecrypt : Bytes 16 → Bytes 12 → {n : ℕ} → Bytes n → Bytes 16 →
    Option (Bytes n)

namespace Mbedtls

/-- Decryption inverts encryption, for the two block modes. -/
structure Lawful (m : Mbedtls) : Prop where
  cbc_decrypt : ∀ key iv {n : ℕ} (input output : Bytes n),
    m.aesCryptCbcEncrypt key iv input = some output →
      m.aesCryptCbcDecrypt key iv output = some input
  gcm_decrypt : ∀ key nonce {n : ℕ} (input output : Bytes n) (tag : Bytes 16),
    m.gcmCryptAndTag key nonce input = some (output, tag) →
      m.gcmAuthDecrypt key nonce output tag = some input

/-- The calls succeed on arguments of the right sizes. -/
structure Total (m : Mbedtls) : Prop where
  hmac : ∀ key input, (m.mdHmac key input).isSome
  cbc_encrypt : ∀ key iv {n : ℕ} (input : Bytes n),
    (m.aesCryptCbcEncrypt key iv input).isSome
  gcm_encrypt : ∀ key nonce {n : ℕ} (input : Bytes n),
    (m.gcmCryptAndTag key nonce input).isSome

/-! ## The wrappers -/

variable (m : Mbedtls)

/-- `sst_hmac_sha256_ex` with the 32-byte keys it is called with. -/
def sstHmacSha256Ex (key : Bytes 32) (input : List UInt8) :
    Option (Bytes 32) :=
  m.mdHmac key input

/-- `sst_aes_128_cbc_decrypt`; the caller checks the padding. -/
def sstAes128CbcDecrypt (key16 iv : Bytes 16) {n : ℕ} (input : Bytes n) :
    Option (Bytes n) :=
  m.aesCryptCbcDecrypt key16 iv input

/-- The padding loop of `sst_aes_128_cbc_encrypt_pkcs7`. -/
def padPkcs7 {n : ℕ} (input : Bytes n) : Bytes (n + (16 - n % 16)) :=
  input.append
    (List.Vector.replicate (16 - n % 16) (UInt8.ofNat (16 - n % 16)))

def sstAes128CbcEncryptPkcs7 (key16 iv : Bytes 16) {n : ℕ}
    (input : Bytes n) : Option (Bytes (n + (16 - n % 16))) :=
  m.aesCryptCbcEncrypt key16 iv (padPkcs7 input)

/-- `sst_encrypt_gcm`: AES-128-GCM without additional data. -/
def sstEncryptGcm (key : Bytes 16) (nonce : Bytes 12) {n : ℕ}
    (input : Bytes n) : Option (Bytes n × Bytes 16) :=
  m.gcmCryptAndTag key nonce input

def sstDecryptGcm (key : Bytes 16) (nonce : Bytes 12) {n : ℕ}
    (ciphertext : Bytes n) (tag : Bytes 16) : Option (Bytes n) :=
  m.gcmAuthDecrypt key nonce ciphertext tag

/-- Decryption of a ciphertext that is known as a list of bytes. -/
theorem Lawful.gcm_decrypt_toList {m : Mbedtls} (hm : m.Lawful)
    {key : Bytes 16} {nonce : Bytes 12} {n : ℕ} {input output : Bytes n}
    {tag : Bytes 16} (h : m.sstEncryptGcm key nonce input = some (output, tag)) :
    ∃ decrypted, m.sstDecryptGcm key nonce
        (Bytes.ofList output.toList) tag =
          some decrypted ∧ decrypted.toList = input.toList := by
  obtain ⟨l, rfl⟩ := output
  exact ⟨input, hm.gcm_decrypt key nonce input _ tag h, rfl⟩

/-- Primitives that keep the text readable and use the key as the tag: enough to
run the programs on an example. -/
def transparent : Mbedtls where
  mdHmac key _ := some key
  sha256 _ := Bytes.zero 32
  aesCryptCbcEncrypt _ _ _ input := some input
  aesCryptCbcDecrypt _ _ _ input := some input
  gcmCryptAndTag key _ _ input := some (input, key)
  gcmAuthDecrypt key _ _ ciphertext tag :=
    if tag = key then some ciphertext else none

theorem total_transparent : transparent.Total where
  hmac _ _ := rfl
  cbc_encrypt _ _ _ _ := rfl
  gcm_encrypt _ _ _ _ := rfl

theorem lawful_transparent : transparent.Lawful where
  cbc_decrypt := by
    intro key iv n input output h
    exact h.symm
  gcm_decrypt := by
    intro key nonce n input output tag h
    obtain ⟨rfl, rfl⟩ := Prod.mk.inj (Option.some.inj h)
    exact if_pos rfl

end Mbedtls

end LifiAuth
