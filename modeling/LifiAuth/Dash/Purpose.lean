import LifiAuth.Dash.ActiveKey

/-!
# The purpose of key requests

`get_session_key` sends the purpose that stands in the configuration, and
`get_session_key_by_ID` overwrites it for good when it has to ask Auth.  The targeted
fetch of key `f` puts the purpose back, the branch of a peer's key id does not; so a
request goes out with the configured purpose exactly if no key id from outside the
key list came before it.
-/

namespace LifiAuth

open Support

variable (m : Mbedtls) (api : SstApi) {Purpose : Type*}
  (keyIdPurpose : Bytes 8 → Purpose)

/-! ## What an event does to the purpose -/

/-- The id is one of the list that `get_session_key_by_ID` is given. -/
def KeyList.HasId (keys : KeyList) (id : Bytes 8) : Prop :=
  id ∈ (keys.getD []).map SessionKey.keyId

instance (keys : KeyList) (id : Bytes 8) : Decidable (keys.HasId id) :=
  inferInstanceAs (Decidable (_ ∈ _))

/-- The purpose after `get_session_key_by_ID`: an id of the list is found there,
for any other one the purpose is replaced. -/
def purposeAfterById (keys : KeyList) (id : Bytes 8) (purpose : Purpose) : Purpose :=
  if keys.HasId id then purpose else keyIdPurpose id

/-- The second `strncpy` around the targeted fetch. -/
def restorePurpose (savedPurpose _fetched : Purpose) : Purpose :=
  savedPurpose

/-- The purpose after an event, and the purposes with which it called
`get_session_key`. -/
def purposeStep (d : Dash) (env : DashEnv) (purpose : Purpose) :
    DashEvent → Purpose × List Purpose
  | .key (.f remote) =>
      if remote.hasMaterial then (purpose, [])
      else if remote.hasTarget then
        (restorePurpose purpose
          (purposeAfterById keyIdPurpose d.keyList remote.targetId purpose), [purpose])
      else (purpose, [purpose])
  | .uart (.frame (.keyIdOnly payload _)) =>
      (purposeAfterById keyIdPurpose d.keyList (d.noteId env payload).lastLifiId
        purpose, [])
  | .uart (.frame (.data .encrypted nonce ciphertext tag)) =>
      if (d.decrypts m nonce ciphertext tag).map cstr = some (ascii "new key -f") then
        (purpose, [purpose])
      else (purpose, [])
  | _ => (purpose, [])

/-- The receiver with the purpose in its configuration; it emits the purposes of its
requests. -/
def purposeReceiver : Machine (Dash × Purpose) (DashEnv × DashEvent) Purpose where
  step s e :=
    (((dashStep m api s.1 e.1 e.2).1, (purposeStep m keyIdPurpose s.1 e.1 s.2 e.2).1),
      (purposeStep m keyIdPurpose s.1 e.1 s.2 e.2).2)

/-! ## Requests and foreign ids -/

/-- The event calls `get_session_key`. -/
def requestsKeys (d : Dash) : DashEvent → Bool
  | .key (.f remote) => !remote.hasMaterial
  | .uart (.frame (.data .encrypted nonce ciphertext tag)) =>
      (d.decrypts m nonce ciphertext tag).map cstr = some (ascii "new key -f")
  | _ => false

/-- The id of a key id frame, if it is not in the key list. -/
def foreignId (d : Dash) (env : DashEnv) : DashEvent → Option (Bytes 8)
  | .uart (.frame (.keyIdOnly payload _)) =>
      let id := (d.noteId env payload).lastLifiId
      if d.keyList.HasId id then none else some id
  | _ => none

/-- The last of them in a run, if `last` was it before. -/
def lastForeignId (d : Dash) (last : Option (Bytes 8)) :
    List (DashEnv × DashEvent) → Option (Bytes 8)
  | [] => last
  | e :: es => lastForeignId (dashStep m api d e.1 e.2).1
      ((foreignId d e.1 e.2).or last) es

theorem purposeStep_eq (d : Dash) (env : DashEnv) (purpose : Purpose)
    (ev : DashEvent) :
    purposeStep m keyIdPurpose d env purpose ev =
      ((foreignId d env ev).elim purpose keyIdPurpose,
        if requestsKeys m d ev then [purpose] else []) := by
  cases ev with
  | key key =>
      cases key with
      | f remote =>
          obtain ⟨hasTarget, targetId, hasMaterial, cipherKey, macKey⟩ := remote
          cases hasMaterial with
          | true => rfl
          | false =>
              cases hasTarget with
              | true => rfl
              | false => rfl
      | _ => rfl
  | timeout => rfl
  | uart r =>
      cases r with
      | frame f =>
          cases f with
          | keyIdOnly payload len =>
              simp only [purposeStep, foreignId, purposeAfterById]
              split
              · rfl
              · rfl
          | sstHs2 hs2 => rfl
          | data t nonce ciphertext tag =>
              cases t with
              | file => rfl
              | encrypted =>
                  simp only [purposeStep, requestsKeys, decide_eq_true_eq]
                  split
                  · rfl
                  · rfl
      | _ => rfl

/-- The purpose is the one of the last foreign id. -/
theorem run_purposeReceiver (d : Dash) (purpose : Purpose) (last : Option (Bytes 8))
    (es : List (DashEnv × DashEvent)) :
    (purposeReceiver m api keyIdPurpose).run (d, last.elim purpose keyIdPurpose) es =
      ((dashReceiver m api).run d es,
        (lastForeignId m api d last es).elim purpose keyIdPurpose) := by
  induction es generalizing d last with
  | nil => rfl
  | cons e es ih =>
      have hnext : ((purposeReceiver m api keyIdPurpose).step
          (d, last.elim purpose keyIdPurpose) e).1 =
          ((dashStep m api d e.1 e.2).1,
            ((foreignId d e.1 e.2).or last).elim purpose keyIdPurpose) := by
        simp only [purposeReceiver, purposeStep_eq]
        cases foreignId d e.1 e.2 with
        | none => rfl
        | some id => rfl
      rw [Machine.run_cons, hnext, ih]
      rfl

/-! ## Runs -/

/-- All requests of a run carry the configured purpose exactly if, at each of them,
no foreign id has come before, or the last one's purpose is the configured one. -/
theorem purpose_kept_iff (d : Dash) (configured : Purpose)
    (es : List (DashEnv × DashEvent)) :
    (∀ purpose ∈ (purposeReceiver m api keyIdPurpose).trace (d, configured) es,
        purpose = configured) ↔
      ∀ before e after, es = before ++ e :: after →
        requestsKeys m ((dashReceiver m api).run d before) e.2 = true →
        ∀ id ∈ lastForeignId m api d none before, keyIdPurpose id = configured := by
  have hrun := run_purposeReceiver m api keyIdPurpose d configured none
  have hrequest (before : List (DashEnv × DashEvent)) (e : DashEnv × DashEvent)
      (purpose : Purpose) :
      purpose ∈ ((purposeReceiver m api keyIdPurpose).step
          ((purposeReceiver m api keyIdPurpose).run (d, configured) before) e).2 ↔
        requestsKeys m ((dashReceiver m api).run d before) e.2 = true ∧
          purpose = (lastForeignId m api d none before).elim configured
            keyIdPurpose := by
    rw [show (d, configured) = (d, (none : Option (Bytes 8)).elim configured
      keyIdPurpose) from rfl, hrun]
    simp only [purposeReceiver, purposeStep_eq]
    split
    · next hcalls => simp [hcalls]
    · next hcalls => simp [hcalls]
  have hkept (last : Option (Bytes 8)) :
      last.elim configured keyIdPurpose = configured ↔
        ∀ id ∈ last, keyIdPurpose id = configured := by
    cases last with
    | none => simp
    | some id => simp
  constructor
  · intro h before e after hes hcalls
    refine (hkept _).mp (h _ (Machine.mem_trace_iff.mpr ⟨before, e, after, hes, ?_⟩))
    exact (hrequest before e _).mpr ⟨hcalls, rfl⟩
  · intro h purpose hpurpose
    obtain ⟨before, e, after, hes, hmem⟩ := Machine.mem_trace_iff.mp hpurpose
    obtain ⟨hcalls, rfl⟩ := (hrequest before e purpose).mp hmem
    exact (hkept _).mpr (h before e after hes hcalls)

/-- A peer's key id that no key of the list has, and key `f` afterwards. -/
def foreignIdThenForce : List (DashEnv × DashEvent) :=
  [(.bare, .uart (.frame (.keyIdOnly (List.replicate 8 1) (by decide)))),
    (.bare, .key (.f ⟨false, Bytes.zero 8, false, Bytes.zero 16, Bytes.zero 32⟩))]

/-- The blind fetch asks with the key id purpose. -/
theorem force_after_foreignId :
    ∃ purpose ∈ (purposeReceiver .transparent .failing some).trace
        (Dash.start true (some [SessionKey.zero])
          (List.Vector.replicate 64 (Bytes.zero 12)), none) foreignIdThenForce,
      purpose ≠ none := by
  refine ⟨some (List.Vector.replicate 8 1), ?_, nofun⟩
  decide +kernel

end LifiAuth
