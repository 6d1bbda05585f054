import LifiAuth.Dash.State
import LifiAuth.Protocol.Handshake

/-!
# The handshake functions of sst-c-api

The submodule is not part of the repository.  What the protocol relies on is stated
here, together with functions that behave so.
-/

namespace LifiAuth

variable (m : Mbedtls)

/-- `parse_handshake_1` emits `key_id | IV | CBC([1][entity nonce]) | HMAC`;
`check_handshake_2_send_handshake_3` answers an `SST_HS2` whose tag verifies and
which carries indicator 2 and the given entity nonce, with
`IV | CBC([3][entity nonce][pico nonce]) | HMAC`. -/
structure SstApi.Lawful (api : SstApi) : Prop where
  parse : ∀ key random hs1 nonce,
    api.parseHandshake1 key random = (some hs1, nonce) →
      nonce = random.nonce ∧ ∃ ctext mac,
        m.sstAes128CbcEncryptPkcs7 key.aesKey random.iv (hs1Plain random.nonce) =
            some ctext ∧
          m.sstHmacSha256Ex key.macKey (random.iv.append ctext).toList =
            some mac ∧
          hs1 = (hs1Message key.keyId random.iv ctext mac).toList
  check : ∀ hs2 nonce key random hs3,
    api.checkHandshake2SendHandshake3 hs2 nonce key random = some hs3 →
      m.sstHmacSha256Ex key.macKey (blobBody hs2).toList = some (blobMac hs2) ∧
        ∃ plain ctext mac,
          m.sstAes128CbcDecrypt key.aesKey (blobIv hs2) (blobCtext hs2) =
              some plain ∧
            plainIndicator plain = 2 ∧ plainSecond plain = nonce ∧
            m.sstAes128CbcEncryptPkcs7 key.aesKey random.iv
                (hsPlain 3 nonce (plainFirst plain)) = some ctext ∧
            m.sstHmacSha256Ex key.macKey (random.iv.append ctext).toList =
              some mac ∧
            hs3 = (hsBlob random.iv ctext mac).toList

/-- Functions that do what the protocol relies on. -/
def SstApi.reference : SstApi where
  parseHandshake1 key random :=
    (do
      let ctext ← m.sstAes128CbcEncryptPkcs7 key.aesKey random.iv
        (hs1Plain random.nonce)
      let mac ← m.sstHmacSha256Ex key.macKey (random.iv.append ctext).toList
      return (hs1Message key.keyId random.iv ctext mac).toList,
      random.nonce)
  checkHandshake2SendHandshake3 hs2 nonce key random :=
    if m.sstHmacSha256Ex key.macKey (blobBody hs2).toList = some (blobMac hs2)
    then do
      let plain ← m.sstAes128CbcDecrypt key.aesKey (blobIv hs2) (blobCtext hs2)
      if plainIndicator plain = 2 ∧ plainSecond plain = nonce then
        let ctext ← m.sstAes128CbcEncryptPkcs7 key.aesKey random.iv
          (hsPlain 3 nonce (plainFirst plain))
        let mac ← m.sstHmacSha256Ex key.macKey (random.iv.append ctext).toList
        return (hsBlob random.iv ctext mac).toList
      else none
    else none

theorem SstApi.lawful_reference : (SstApi.reference m).Lawful m where
  parse := by
    intro key random hs1 nonce h
    obtain ⟨hmade, rfl⟩ := Prod.mk.inj h
    obtain ⟨ctext, hctext, hmade⟩ := Option.bind_eq_some_iff.mp hmade
    obtain ⟨mac, hmac, hmade⟩ := Option.bind_eq_some_iff.mp hmade
    exact ⟨rfl, ctext, mac, hctext, hmac, (Option.some.inj hmade).symm⟩
  check := by
    intro hs2 nonce key random hs3 h
    simp only [SstApi.reference] at h
    split at h
    · next hverified =>
        obtain ⟨plain, hplain, h⟩ := Option.bind_eq_some_iff.mp h
        split at h
        · next hfields =>
            obtain ⟨ctext, hctext, h⟩ := Option.bind_eq_some_iff.mp h
            obtain ⟨mac, hmac, h⟩ := Option.bind_eq_some_iff.mp h
            exact ⟨hverified, plain, ctext, mac, hplain, hfields.1, hfields.2,
              hctext, hmac, (Option.some.inj h).symm⟩
        · exact absurd h (by simp)
    · exact absurd h (by simp)

end LifiAuth
