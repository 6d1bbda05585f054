import LifiAuth.Dash.ActiveKey

/-!
# Requests for keys that fail

Three paths ask Auth for a fresh key list: key `f`, a queued force request that names
no key, and a `new key -f` message.  When Auth gives nothing, the first two keep what
they have; the third has freed the key list before it asked.
-/

namespace LifiAuth

open Support

variable (m : Mbedtls) (api : SstApi)

/-! ## What must not change -/

/-- The keys in use, pending and published, and the keys that can be used later. -/
structure KeyView where
  keys : List SessionKey
  sKey : SessionKey
  keyValid : Bool
  pendingKey : Bytes 32
  state : ReceiverState
  repMacKey : Bytes 32
  currentKeyIdHex : List UInt8
  deriving DecidableEq

/-- An absent list is as usable as an empty one. -/
def Dash.keyView (d : Dash) : KeyView where
  keys := d.keyList.getD []
  sKey := d.sKey
  keyValid := d.keyValid
  pendingKey := d.pendingKey
  state := d.state
  repMacKey := d.rep.macKey
  currentKeyIdHex := d.rep.currentKeyIdHex

/-- The event asks for a fresh list: key `f` or a force request without a key id,
or a frame that decrypts to `new key -f`. -/
def fetchesList (d : Dash) : DashEvent → Bool
  | .key (.f remote) => !remote.hasMaterial && !remote.hasTarget
  | .uart (.frame (.data .encrypted nonce ciphertext tag)) =>
      (d.decrypts m nonce ciphertext tag).map cstr == some (ascii "new key -f")
  | _ => false

/-- `NULL` or a list without keys. -/
def DashEnv.fetchFails (env : DashEnv) : Prop :=
  env.sessionKeys.getD [] = []

/-- The event came over the serial line. -/
def DashEvent.fromUart : DashEvent → Bool
  | .uart _ => true
  | _ => false

/-! ## The two handlers -/

variable {m api} {env : DashEnv} {d : Dash}

theorem DashEnv.fetchFails.cases (hfail : env.fetchFails) :
    env.sessionKeys = none ∨ env.sessionKeys = some [] := by
  rw [DashEnv.fetchFails] at hfail
  cases hkeys : env.sessionKeys with
  | none => exact Or.inl rfl
  | some keys =>
      rw [hkeys, Option.getD_some] at hfail
      exact Or.inr (congrArg some hfail)

/-- Key `f` fetches before it frees. -/
theorem handleForce_of_fetchFails {remote : RemoteForce}
    (hfetch : fetchesList m d (.key (.f remote)) = true) (hfail : env.fetchFails) :
    (handleForce env remote d).1 = d := by
  obtain ⟨hmaterial, htarget⟩ := Bool.and_eq_true_iff.mp hfetch
  rw [Bool.not_eq_true'] at hmaterial htarget
  rw [handleForce, if_neg (Bool.eq_false_iff.mp hmaterial),
    if_neg (Bool.eq_false_iff.mp htarget)]
  rcases hfail.cases with hnone | hempty
  · rw [hnone]
  · rw [hempty]

/-- `new key -f` frees before it fetches. -/
theorem keyView_handleNewKeyForced (hfail : env.fetchFails) :
    (handleNewKeyForced env d).1.keyView = { d.keyView with keys := [] } := by
  rw [handleNewKeyForced]
  rcases hfail.cases with hnone | hempty
  · rw [hnone]
    rfl
  · rw [hempty]
    rfl

variable (api) in
/-- So a message loses the list and nothing else. -/
theorem keyView_of_message {nonce : Bytes 12} {ciphertext : Ctext} {tag : Bytes 16}
    (hfetch : fetchesList m d
      (.uart (.frame (.data .encrypted nonce ciphertext tag))) = true)
    (hfail : env.fetchFails) :
    (handleData m api env .encrypted nonce ciphertext tag d).1.keyView =
      { d.keyView with keys := [] } := by
  obtain ⟨text, hdecrypts, htext⟩ :=
    Option.map_eq_some_iff.mp (eq_of_beq hfetch)
  obtain ⟨-, hdata⟩ := handleData_of_decrypts api env .encrypted hdecrypts
  have hmessage : handleMessage api env text (d.record nonce) =
      handleNewKeyForced env (d.record nonce) := by
    rw [handleMessage]
    simp only [htext]
    rw [if_neg (by decide), if_pos trivial]
  have hfinish (d' : Dash) : (finishData ciphertext.1 text d').keyView = d'.keyView :=
    rfl
  rw [hdata, hfinish, handleDecrypted, hmessage, keyView_handleNewKeyForced hfail]
  rfl

/-! ## Failed requests -/

theorem KeyView.withoutKeys_eq_iff (v : KeyView) :
    { v with keys := [] } = v ↔ v.keys = [] := by
  constructor
  · intro h
    rw [← h]
  · intro h
    rw [← h]

variable (m api) in
/-- A request that fails changes nothing exactly if it was made by key `f` or by a
force request, or there was no key in the list. -/
theorem failedFetch_keeps_iff (d : Dash) (env : DashEnv) (ev : DashEvent)
    (hfetch : fetchesList m d ev = true) (hfail : env.fetchFails) :
    (dashStep m api d env ev).1.keyView = d.keyView ↔
      (ev.fromUart = true → d.keyList.getD [] = []) := by
  match ev, hfetch with
  | .key (.f remote), hfetch =>
      have hsame : (dashStep m api d env (.key (.f remote))).1 = d :=
        handleForce_of_fetchFails hfetch hfail
      rw [hsame]
      exact iff_of_true rfl fun h => absurd h Bool.false_ne_true
  | .uart (.frame (.data .encrypted nonce ciphertext tag)), hfetch =>
      have hlost : (dashStep m api d env
          (.uart (.frame (.data .encrypted nonce ciphertext tag)))).1.keyView =
          { d.keyView with keys := [] } :=
        keyView_of_message api (d := d.counted) hfetch hfail
      rw [hlost, KeyView.withoutKeys_eq_iff]
      exact ⟨fun hempty _ => hempty, fun hempty => hempty rfl⟩

/-! ## A request by message -/

/-- A receiver with one key. -/
def oneKeyed : Dash :=
  Dash.start true (some [SessionKey.zero]) (List.Vector.replicate 64 (Bytes.zero 12))

theorem length_newKeyForced : (ascii "new key -f").length ≤ maxCtextLen := by
  decide

/-- `new key -f` under that key. -/
def forcedRequest : DashEvent :=
  .uart (.frame (.data .encrypted (List.Vector.replicate 12 1)
    ⟨ascii "new key -f", length_newKeyForced⟩ (Bytes.zero 16)))

theorem failedFetch_keeps_iff_forcedRequest :
    (fetchesList .transparent oneKeyed forcedRequest = true ∧ DashEnv.bare.fetchFails) ∧
      ((dashStep .transparent .failing oneKeyed .bare forcedRequest).1.keyView =
          oneKeyed.keyView ↔
        (forcedRequest.fromUart = true → oneKeyed.keyList.getD [] = [])) :=
  ⟨⟨by decide, rfl⟩,
    failedFetch_keeps_iff .transparent .failing oneKeyed .bare forcedRequest (by decide)
      rfl⟩

/-- Auth answers nothing, and the key list is gone. -/
theorem forcedRequest_loses_list :
    fetchesList .transparent oneKeyed forcedRequest = true ∧ DashEnv.bare.fetchFails ∧
      (dashStep .transparent .failing oneKeyed .bare forcedRequest).1.keyView ≠
        oneKeyed.keyView := by
  refine ⟨by decide, rfl, ?_⟩
  decide

end LifiAuth
