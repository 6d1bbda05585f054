import LifiAuth.Dash.Handlers

/-!
# The threads of dash_receiver that talk to the dashboard

`challenge_handle` of the challenge server and the two threads that post reports.
They share the reporter's globals with the main loop.
-/

namespace LifiAuth

open Support

variable (m : Mbedtls) (api : SstApi)

/-- The program with its threads; `answering` is the tag `challenge_handle` holds
between its two critical sections. -/
structure Pi4 where
  dash : Dash
  answering : Option (Bytes 32)

inductive Pi4Out where
  /-- An output of the main loop. -/
  | loop (o : DashOut)
  /-- `challenge_handle` computed the HMAC of a nonce. -/
  | nonceMaced (macKey nonce : Bytes 32)
  /-- The response to a challenge. -/
  | answered (hmacHex keyId : List UInt8)
  /-- `dashboard_http_post` computed the HMAC of a report. -/
  | reported (macKey : Bytes 32) (json : List UInt8)
  deriving DecidableEq

/-! ## Challenges -/

/-- The hex digits after `"nonce":"`. -/
def challengeNonceHex (body : List UInt8) : Option (List UInt8) :=
  (strstr (ascii "\"nonce\"") body).bind fun p =>
    (strchr 58 p).bind fun p =>
      let p := p.dropWhile fun c => c == 58 || c == 32 || c == 34
      let hex := (p.takeWhile fun c => c != 34).take 64
      if hex.length = 64 then some hex else none

/-- The decoding loop; a pair that is no number leaves what was on the stack. -/
def decodeNonce (hex : List UInt8) (stack : Bytes 32) : Bytes 32 :=
  List.Vector.ofFn fun j =>
    (sscanfHexByte (hex.drop (2 * j))).getD (stack.get j)

/-- `challenge_handle` up to the HMAC; `stack` is what its locals held before. -/
def challengeBegin (body : List UInt8) (stack : Bytes 32) (p : Pi4) :
    Pi4 × List Pi4Out :=
  match p.answering, challengeNonceHex (cstr body) with
  | none, some hex =>
      if p.dash.rep.keyValid then
        let nonce := decodeNonce hex stack
        match m.sstHmacSha256Ex p.dash.rep.macKey nonce.toList with
        | some mac =>
            ({ p with answering := some mac },
              [.nonceMaced p.dash.rep.macKey nonce])
        | none => ({ p with answering := some stack }, [])
      else (p, [])
  | _, _ => (p, [])

/-- The second critical section and the response. -/
def challengeEnd (p : Pi4) : Pi4 × List Pi4Out :=
  match p.answering with
  | none => (p, [])
  | some mac =>
      ({ p with answering := none },
        [.answered (hexString mac.toList) p.dash.rep.currentKeyIdHex])

/-! ## Reports -/

/-- The text of `reporter_post`. -/
def frameReportJson (ev : ReporterEvent) : List UInt8 :=
  ascii "\x7b\"event\":\"frame_decrypted\",\"key_id\":\"" ++ ev.keyIdHex ++
    ascii "\",\"payload_preview\":\"" ++ ev.payloadPreview ++
    ascii "\",\"raw_preview\":\"" ++ ev.rawPreview ++
    ascii "\",\"stats\":\x7b\"total\":" ++ decimal ev.total ++
    ascii ",\"ok\":" ++ decimal ev.ok ++ ascii ",\"fail\":" ++
    decimal ev.fail ++ ascii "\x7d\x7d"

/-- The text of `reporter_post_key_loaded`. -/
def keyLoadedJson (keyId : Bytes 8) : List UInt8 :=
  ascii "\x7b\"event\":\"key_loaded\",\"key_id\":\"" ++
    hexString keyId.toList ++ ascii "\"\x7d"

/-- The escaping loop of `status_reporter_thread`, `j` bytes into its buffer. -/
def escapeStatus : List UInt8 → ℕ → List UInt8
  | [], _ => []
  | c :: s, j =>
      if j < 254 then
        if c = 34 ∨ c = 92 then 92 :: c :: escapeStatus s (j + 2)
        else c :: escapeStatus s (j + 1)
      else []

/-- The text of `status_reporter_thread`. -/
def statusMessageJson (message : List UInt8) : List UInt8 :=
  ascii "\x7b\"event\":\"status_message\",\"message\":\"" ++
    escapeStatus ((cstr message).take 319) 0 ++ ascii "\"\x7d"

/-- `dashboard_http_post`. -/
def dashboardHttpPost (json : List UInt8) (p : Pi4) : List Pi4Out :=
  match m.sstHmacSha256Ex p.dash.rep.macKey json with
  | some _ => [.reported p.dash.rep.macKey json]
  | none => []

/-! ## Steps -/

inductive Pi4Event where
  | loop (env : DashEnv) (ev : DashEvent)
  | request (body : List UInt8) (stack : Bytes 32)
  | respond
  /-- `reporter_thread` posts its copy of the event. -/
  | frameReport (ev : ReporterEvent)
  | keyLoadedReport (keyId : Bytes 8)
  | statusReport (message : List UInt8)

def pi4Step (p : Pi4) : Pi4Event → Pi4 × List Pi4Out
  | .loop env ev =>
      ({ p with dash := (dashStep m api p.dash env ev).1 },
        (dashStep m api p.dash env ev).2.map .loop)
  | .request body stack => challengeBegin m body stack p
  | .respond => challengeEnd p
  | .frameReport ev =>
      if p.dash.rep.keyValid then
        (p, dashboardHttpPost m (frameReportJson ev) p)
      else (p, [])
  | .keyLoadedReport keyId => (p, dashboardHttpPost m (keyLoadedJson keyId) p)
  | .statusReport message =>
      (p, dashboardHttpPost m (statusMessageJson message) p)

def pi4 : Machine Pi4 Pi4Event Pi4Out where
  step := pi4Step m api

end LifiAuth
