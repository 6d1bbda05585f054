import LifiAuth.Protocol.Crypto
import LifiAuth.Support.Machine
import LifiAuth.Support.Text

/-!
# The dashboard's challenge

`handle_challenge_pi4` of `sender/dashboard/app.py`: status query, key push and
challenge, with the signed requests they send.  Every network answer is an input
of its own, so that the globals may change between a request and its answer.
-/

namespace LifiAuth

open Support

variable (m : Mbedtls)

/-- Where `handle_challenge_pi4` is. -/
inductive ChallengeStage where
  | idle
  /-- A status query is out, unless there was no key to sign it with; `polls` is
  how many more may follow, for the queries after a key push. -/
  | querying (sent : Bool) (polls : Option ℕ)
  | pushing
  | challenging (nonce : Bytes 32)
  deriving DecidableEq

/-- Whether the handler waits for the answer to a challenge. -/
def ChallengeStage.waits : ChallengeStage → Bool
  | challenging _ => true
  | _ => false

/-- The globals of `app.py` that the challenge uses, and its running handlers:
every press of the button has one of its own. -/
structure Dashboard where
  macKey : Option (Bytes 32)
  loadedKeyId : Option (List UInt8)
  loadedCipherKey : Option (List UInt8)
  pi4LoadedKeyId : Option (List UInt8)
  stage : ℕ → ChallengeStage

inductive ChallengeResult where
  | error
  | failed
  | verified (keyId : List UInt8)
  deriving DecidableEq

inductive DashboardOut where
  /-- `_sign_pi4_request` computed a tag. -/
  | signed (macKey : Bytes 32) (text : List UInt8)
  /-- `os.urandom(32)` returned a challenge nonce. -/
  | nonceDrawn (nonce : Bytes 32)
  | result (r : ChallengeResult)
  deriving DecidableEq

/-- What `_sign_pi4_request` takes from the system. -/
structure SignEnv where
  time : ℕ
  nonce : Bytes 12

/-! ## Requests -/

/-- `ts|nonce|path|body`. -/
def signedText (env : SignEnv) (path body : List UInt8) : List UInt8 :=
  decimal env.time ++ [124] ++ hexString env.nonce.toList ++ [124] ++ path ++
    [124] ++ body

/-- `_sign_pi4_request`: there is nothing to sign with without a key. -/
def signPi4Request (env : SignEnv) (path body : List UInt8)
    (key : Option (Bytes 32)) : Option DashboardOut :=
  key.map fun k => .signed k (signedText env path body)

/-- `json.dumps({'nonce': nonce_hex})`. -/
def challengeBody (nonce : Bytes 32) : List UInt8 :=
  ascii "\x7b\"nonce\": \"" ++ hexString nonce.toList ++ ascii "\"\x7d"

/-- The body of a key push. -/
def forceKeyBody (keyId cipherKey : List UInt8) (macKey : Bytes 32) :
    List UInt8 :=
  ascii "\x7b\"key_id\": \"" ++ keyId ++ ascii "\", \"cipher_key\": \"" ++
    hexString cipherKey ++ ascii "\", \"mac_key\": \"" ++
    hexString macKey.toList ++ ascii "\"\x7d"

/-! ## The handler -/

def Dashboard.toStage (id : ℕ) (stage : ChallengeStage) (d : Dashboard) :
    Dashboard :=
  { d with stage := Function.update d.stage id stage }

theorem Dashboard.toStage_self (id : ℕ) (stage : ChallengeStage) (d : Dashboard) :
    (d.toStage id stage).stage id = stage :=
  Function.update_self ..

theorem Dashboard.toStage_of_ne {id id' : ℕ} (h : id' ≠ id)
    (stage : ChallengeStage) (d : Dashboard) :
    (d.toStage id stage).stage id' = d.stage id' :=
  Function.update_of_ne h ..

def Dashboard.finish (id : ℕ) (r : ChallengeResult) (d : Dashboard) :
    Dashboard × List DashboardOut :=
  (d.toStage id .idle, [.result r])

/-- The request of `_query_pi4_key_status`. -/
def queryStatus (id : ℕ) (env : SignEnv) (polls : Option ℕ) (d : Dashboard) :
    Dashboard × List DashboardOut :=
  (d.toStage id (.querying d.macKey.isSome polls),
    (signPi4Request env (ascii "/status") [] d.macKey).toList)

/-- The request of `_force_pi4_key_refresh(_mac_key, _loaded_key_id)`; empty
strings count as missing. -/
def pushKey (id : ℕ) (env : SignEnv) (d : Dashboard) :
    Dashboard × List DashboardOut :=
  match d.macKey, d.loadedKeyId, d.loadedCipherKey with
  | some macKey, some (k :: keyId), some (c :: cipherKey) =>
      (d.toStage id .pushing,
        (signPi4Request env (ascii "/force_key")
          (forceKeyBody (k :: keyId) (c :: cipherKey) macKey)
          (some macKey)).toList)
  | _, _, _ => d.finish id .error

/-- A new nonce and the signed challenge request. -/
def sendChallenge (id : ℕ) (env : SignEnv) (nonce : Bytes 32) (d : Dashboard) :
    Dashboard × List DashboardOut :=
  match d.macKey with
  | none => (d.toStage id .idle, [.nonceDrawn nonce, .result .error])
  | some macKey =>
      (d.toStage id (.challenging nonce),
        .nonceDrawn nonce ::
          (signPi4Request env (ascii "/challenge") (challengeBody nonce)
            (some macKey)).toList)

/-- The start of `handle_challenge_pi4`. -/
def handleChallengePi4 (id : ℕ) (env : SignEnv) (d : Dashboard) :
    Dashboard × List DashboardOut :=
  match d.macKey, d.loadedKeyId with
  | some _, some (_ :: _) => queryStatus id env none d
  | _, _ => (d, [.result .error])

/-- The key id in the answer to a status query decides what comes next. -/
def handleStatusReply (id : ℕ) (env : SignEnv) (nonce : Bytes 32)
    (reply : Option (List UInt8)) (polls : Option ℕ) (d : Dashboard) :
    Dashboard × List DashboardOut :=
  match polls with
  | none =>
      if reply = d.loadedKeyId then sendChallenge id env nonce d
      else pushKey id env d
  | some n =>
      if reply = d.loadedKeyId then
        sendChallenge id env nonce { d with pi4LoadedKeyId := reply }
      else
        match n with
        | 0 => d.finish id .failed
        | n + 1 => queryStatus id env (some n) d

/-- `hmac.compare_digest(expected, pi4_hmac.lower())`. -/
def verifies (macKey nonce : Bytes 32) (pi4Hmac : List UInt8) : Bool :=
  let lower := pi4Hmac.map fun c => if 65 ≤ c ∧ c ≤ 90 then c + 32 else c
  (m.sstHmacSha256Ex macKey nonce.toList).map
    (fun mac => hexString mac.toList) == some lower

/-- The answer to a challenge. -/
def handleChallengeReply (id : ℕ) (nonce : Bytes 32)
    (pi4Hmac keyId : List UInt8) (d : Dashboard) :
    Dashboard × List DashboardOut :=
  match d.macKey with
  | none => d.finish id .error
  | some macKey =>
      if verifies m macKey nonce pi4Hmac then
        ({ d with pi4LoadedKeyId := some keyId } : Dashboard).finish id
          (.verified keyId)
      else d.finish id .failed

/-! ## Steps -/

/-- What happens to one handler. -/
inductive ChallengeEvent where
  /-- The button `challenge_pi4`. -/
  | press (env : SignEnv)
  | statusReply (reply : Option (List UInt8)) (env : SignEnv) (nonce : Bytes 32)
  | pushReply (ok : Bool) (env : SignEnv)
  | challengeReply (pi4Hmac keyId : List UInt8)
  /-- The connection failed or the answer is no JSON object. -/
  | noReply

inductive DashboardEvent where
  | challenge (id : ℕ) (ev : ChallengeEvent)
  /-- `_load_mac_key` sets two globals and its caller the third. -/
  | keyFileRead (keyId cipherKey : Option (List UInt8))
  | macKeySet (macKey : Option (Bytes 32))
  /-- The other handlers that learn the receiver's key id. -/
  | pi4KeyIdSet (keyId : Option (List UInt8))

/-- One step of the handler `id`, from its stage. -/
def challengeStep (id : ℕ) (d : Dashboard) :
    ChallengeStage → ChallengeEvent → Dashboard × List DashboardOut
  | .idle, .press env => handleChallengePi4 id env d
  | .querying sent polls, .statusReply reply env nonce =>
      handleStatusReply id env nonce (if sent then reply else none) polls d
  | .pushing, .pushReply ok env =>
      if ok then queryStatus id env (some 4) d else d.finish id .error
  | .pushing, .noReply => d.finish id .error
  | .challenging nonce, .challengeReply pi4Hmac keyId =>
      handleChallengeReply m id nonce pi4Hmac keyId d
  | .challenging _, .noReply => d.finish id .error
  | _, _ => (d, [])

def dashboardStep (d : Dashboard) : DashboardEvent → Dashboard × List DashboardOut
  | .challenge id ev => challengeStep m id d (d.stage id) ev
  | .keyFileRead keyId cipherKey =>
      ({ d with loadedKeyId := keyId, loadedCipherKey := cipherKey }, [])
  | .macKeySet macKey => ({ d with macKey := macKey }, [])
  | .pi4KeyIdSet keyId => ({ d with pi4LoadedKeyId := keyId }, [])

def dashboard : Machine Dashboard DashboardEvent DashboardOut where
  step := dashboardStep m

end LifiAuth
