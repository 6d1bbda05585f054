import LifiAuth.Dash.ReplayWindow
import LifiAuth.Wifi.ForceKey

/-!
# The verifier of signed requests

`verify_signed_request` of `dash_receiver.c`: three headers are searched in the request,
the time stamp must be close to the clock, the nonce must not stand in the replay window,
and the tag must be that of `timestamp|nonce|path|body`.  Only then the nonce is added to the
window.
-/

namespace LifiAuth

open Support

/-! ## Parsing -/

/-- `extract_header` with a buffer of `outSize` bytes. -/
def extractHeader (buf headerName : List UInt8) (outSize : ℕ) : Option (List UInt8) :=
  (strstr headerName buf).bind fun p =>
    let p := (p.drop headerName.length).dropWhile fun c => c == 32
    let out := (p.takeWhile fun c => c != 13 && c != 10).take (outSize - 1)
    if out = [] then none else some out

/-- `REQ_SIG_MAX_SKEW_S`. -/
def reqSigMaxSkewS : Int64 := 30

/-- `REQ_NONCE_BYTES`. -/
abbrev reqNonceBytes : ℕ := 12

/-- `skew`; the difference is cut to 64 bits. -/
def requestSkew (now ts : Int64) : Int64 :=
  if ts < now then now - ts else ts - now

/-- The text that is tagged. -/
def signedStr (ts nonceHex path body : List UInt8) : List UInt8 :=
  ts ++ 124 :: (nonceHex ++ 124 :: (path ++ 124 :: body))

/-! ## The verifier -/

/-- `g_req_replay_window`. -/
abbrev RequestWindow := ReplayWindow reqNonceBytes 16

/-- `replay_window_init(&g_req_replay_window, REQ_NONCE_BYTES, 16)`. -/
def RequestWindow.initial (memory : List.Vector (Bytes 12) 64) : RequestWindow :=
  ReplayWindow.init memory (by decide) (by decide) (by decide)

/-- A call of `verify_signed_request`: its arguments, the clock, whether a key is loaded
and what `expected_hmac` holds before the tag is computed. -/
structure VerifyCall where
  buf : List UInt8
  path : List UInt8
  body : List UInt8
  bodyLen : ℕ
  now : Int64
  keyReady : Bool
  stack : Bytes 32

/-- What a request is made of. -/
structure SignedRequest where
  timestamp : List UInt8
  nonce : List UInt8
  path : List UInt8
  body : List UInt8
  hmac : List UInt8
  deriving DecidableEq

namespace SignedRequest

def text (r : SignedRequest) : List UInt8 :=
  signedStr r.timestamp r.nonce r.path r.body

/-- `nonce_bytes`. -/
def nonceBytes (r : SignedRequest) : Option (Bytes reqNonceBytes) :=
  scanHexPairs reqNonceBytes r.nonce

/-- `received_hmac`. -/
def receivedHmac (r : SignedRequest) : Option (Bytes 32) :=
  scanHexPairs 32 r.hmac

end SignedRequest

namespace VerifyCall

variable (c : VerifyCall)

/-- `%.*s` of the body; a length that is no `int` but a negative one counts as none. -/
def printedBody : List UInt8 :=
  let precision := (c.bodyLen : ℤ).bmod (2 ^ 32)
  if precision < 0 then cstr c.body else (cstr c.body).take precision.toNat

/-- What the headers and the arguments say; a header must have its length. -/
def request : Option SignedRequest :=
  match extractHeader (cstr c.buf) (ascii "X-SST-Timestamp:") 32,
      extractHeader (cstr c.buf) (ascii "X-SST-Nonce:") (reqNonceBytes * 2 + 1),
      extractHeader (cstr c.buf) (ascii "X-SST-HMAC:") 65 with
  | some ts, some nonceHex, some hmacHex =>
      if nonceHex.length ≠ reqNonceBytes * 2 ∨ hmacHex.length ≠ 64 then none
      else
        some
          { timestamp := ts
            nonce := nonceHex
            path := cstr c.path
            body := c.printedBody
            hmac := hmacHex }
  | _, _, _ => none

end VerifyCall

variable (m : Mbedtls) (macKey : Bytes 32)

/-- `verify_signed_request`, with `g_rep_mac_key`. -/
def verifySignedRequest (c : VerifyCall) (w : RequestWindow) : Bool × RequestWindow :=
  match c.request with
  | none => (false, w)
  | some r =>
      if reqSigMaxSkewS < requestSkew c.now (Int64.ofInt (strtoll r.timestamp)) then (false, w)
      else
        match r.nonceBytes with
        | none => (false, w)
        | some nonce =>
            if w.seen nonce then (false, w)
            else if ¬ c.keyReady then (false, w)
            else if 1024 ≤ r.text.length then (false, w)
            else
              let expected := (m.sstHmacSha256Ex macKey r.text).getD c.stack
              match r.receivedHmac with
              | none => (false, w)
              | some received =>
                  if expected ≠ received then (false, w) else (true, w.add nonce)

/-- The request of a call and its nonce, if nothing but the window can turn it away. -/
def VerifyCall.genuine (c : VerifyCall) : Option (SignedRequest × Bytes reqNonceBytes) :=
  match c.request with
  | none => none
  | some r =>
      match r.nonceBytes, r.receivedHmac with
      | some nonce, some received =>
          if requestSkew c.now (Int64.ofInt (strtoll r.timestamp)) ≤ reqSigMaxSkewS ∧
              c.keyReady ∧ r.text.length < 1024 ∧
              (m.sstHmacSha256Ex macKey r.text).getD c.stack = received then
            some (r, nonce)
          else none
      | _, _ => none

variable {m macKey}

/-- A genuine request is accepted unless its nonce stands in the window, and no other is. -/
theorem verifySignedRequest_eq (c : VerifyCall) (w : RequestWindow) :
    verifySignedRequest m macKey c w =
      match c.genuine m macKey with
      | none => (false, w)
      | some (_, nonce) => if w.seen nonce then (false, w) else (true, w.add nonce) := by
  rw [verifySignedRequest, VerifyCall.genuine]
  rcases c.request with _ | r
  · rfl
  simp only
  rcases r.nonceBytes with _ | nonce
  · split
    · rfl
    · rfl
  rcases r.receivedHmac with _ | received
  · simp
  by_cases hskew : requestSkew c.now (Int64.ofInt (strtoll r.timestamp)) ≤ reqSigMaxSkewS
  · have hnot := Int64.not_lt.mpr hskew
    by_cases hkey : c.keyReady
    · by_cases hlen : r.text.length < 1024
      · by_cases hmac : (m.sstHmacSha256Ex macKey r.text).getD c.stack = received
        · simp [hskew, hnot, hkey, hlen, Nat.not_le.mpr hlen, hmac]
        · simp [hkey, hlen, hmac]
      · simp [hkey, hlen, Nat.le_of_not_lt hlen]
    · simp [hkey]
  · simp [hskew, Int64.not_le.mp hskew]

theorem genuine_eq_some {c : VerifyCall} {r : SignedRequest} {nonce : Bytes reqNonceBytes} :
    c.genuine m macKey = some (r, nonce) ↔
      c.request = some r ∧ r.nonceBytes = some nonce ∧
        requestSkew c.now (Int64.ofInt (strtoll r.timestamp)) ≤ reqSigMaxSkewS ∧
        c.keyReady ∧ r.text.length < 1024 ∧
        r.receivedHmac = some ((m.sstHmacSha256Ex macKey r.text).getD c.stack) := by
  rw [VerifyCall.genuine]
  constructor
  · intro h
    split at h
    · cases h
    · next r' hr =>
        split at h
        · next nonce' received hnonce hreceived =>
            split at h
            · next hall =>
                obtain ⟨rfl, rfl⟩ := Prod.mk.inj (Option.some.inj h)
                obtain ⟨hskew, hkey, hlen, rfl⟩ := hall
                exact ⟨hr, hnonce, hskew, hkey, hlen, hreceived⟩
            · cases h
        · cases h
  · rintro ⟨hr, hnonce, hskew, hkey, hlen, hreceived⟩
    simp [hr, hnonce, hreceived, hskew, hkey, hlen]

/-- The path and the body are those of the call. -/
theorem parts_of_request {c : VerifyCall} {r : SignedRequest} (h : c.request = some r) :
    r.path = cstr c.path ∧ r.body = c.printedBody := by
  rw [VerifyCall.request] at h
  split at h
  · split at h
    · cases h
    · rw [← Option.some.inj h]
      simp only [and_self]
  · cases h

/-- A body is printed as a whole if its length is passed. -/
theorem printedBody_eq {c : VerifyCall} (hlen : c.bodyLen = c.body.length) (hzero : 0 ∉ c.body)
    (hint : c.body.length < 2 ^ 31) : c.printedBody = c.body := by
  have hprecision : (c.body.length : ℤ).bmod (2 ^ 32) = c.body.length := by
    rw [Int.bmod_eq_of_le]
    · omega
    · omega
  have hnot : ¬ (c.body.length : ℤ) < 0 := Int.not_lt.mpr (Int.natCast_nonneg _)
  unfold VerifyCall.printedBody
  simp only [hlen, hprecision, cstr_of_not_mem hzero, if_neg hnot, Int.toNat_natCast,
    List.take_length]

end LifiAuth
