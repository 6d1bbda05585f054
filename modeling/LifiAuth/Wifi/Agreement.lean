import LifiAuth.System.Handshake
import LifiAuth.Wifi.ChallengeServer
import LifiAuth.Wifi.Dashboard

/-!
# Agreement in the challenge

The dashboard, the receiver with its threads and the sender, with an adversary on
the WiFi between the first two.  A tag over a fresh nonce can only come from the
receiver: the other strings under the key have other lengths.  The key id next to
the tag is not under it.
-/

namespace LifiAuth

open Support

variable (m : Mbedtls) (hse : HeatshrinkEncoder) (api : SstApi)

abbrev WifiState := Dashboard × Pico × Pi4
abbrev WifiIn := DashboardEvent ⊕ (PicoEnv × PicoEvent) ⊕ Pi4Event
abbrev WifiOut := DashboardOut ⊕ PicoOut ⊕ Pi4Out

def wifiLink : Machine WifiState WifiIn WifiOut :=
  (dashboard m).par ((lifiSender m hse).par (pi4 m api))

/-! ## Tags -/

/-- The MAC key and the bytes under a tag that the receiver computed. -/
def Pi4Out.mac : Pi4Out → Option (Bytes 32 × List UInt8)
  | .nonceMaced macKey nonce => some (macKey, nonce.toList)
  | .reported macKey json => some (macKey, json)
  | .loop (.hs1Made key _ hs1) => some (key.macKey, (hs1.drop 8).take 32)
  | .loop (.hs2Verified key _ _ hs3) => some (key.macKey, hs3.take 48)
  | _ => none

def wifiMac : WifiOut → Option (Bytes 32 × List UInt8)
  | .inl (.signed macKey text) => some (macKey, text)
  | .inr (.inl (.hs2Sent macKey _ _ hs2)) =>
      some (macKey, (blobBody hs2).toList)
  | .inr (.inr o) => o.mac
  | _ => none

/-- All tags computed so far. -/
def wifiMacs (t : List WifiOut) : List (Bytes 32 × List UInt8) :=
  t.filterMap wifiMac

/-- The challenge nonces in a list of outputs. -/
def challengeNonces (t : List WifiOut) : List (Bytes 32) :=
  t.filterMap fun
    | .inl (.nonceDrawn nonce) => some nonce
    | _ => none

/-- The key and the nonce of a challenge answer that verifies. -/
def verifiedBy (d : Dashboard) : DashboardEvent → Option (Bytes 32 × Bytes 32)
  | .challenge id (.challengeReply pi4Hmac _) =>
      match d.stage id, d.macKey with
      | .challenging nonce, some macKey =>
          if verifies m macKey nonce pi4Hmac then some (macKey, nonce) else none
      | _, _ => none
  | _ => none

def verifiedInput (s : WifiState) : WifiIn → Option (Bytes 32 × Bytes 32)
  | .inl ev => verifiedBy m s.1 ev
  | .inr _ => none

/-- The rules of a run: nothing was tagged with the bytes of a nonce before it is
drawn, and a tag verifies only over bytes that were tagged. -/
def ChallengeRules (t : List WifiOut) (s : WifiState) (i : WifiIn) : Prop :=
  (∀ nonce ∈ challengeNonces ((wifiLink m hse api).step s i).2,
      nonce.toList ∉ (wifiMacs t).map Prod.snd) ∧
    ∀ x ∈ verifiedInput m s i, (x.1, x.2.toList) ∈ wifiMacs t

instance (t : List WifiOut) (s : WifiState) (i : WifiIn) :
    Decidable (ChallengeRules m hse api t s i) :=
  inferInstanceAs (Decidable (_ ∧ _))

/-! ## What the dashboard does -/

/-- Signed requests are longer than a nonce. -/
theorem length_signedText (env : SignEnv) {path : List UInt8}
    (hpath : 7 ≤ path.length) (body : List UInt8) :
    32 < (signedText env path body).length := by
  simp only [signedText, List.length_append, length_hexString,
    List.Vector.toList_length, List.length_cons, List.length_nil]
  omega

/-- What a step of the dashboard signs, and how a handler comes to wait for the
answer to a challenge. -/
structure DashboardEffect (d : Dashboard) (r : Dashboard × List DashboardOut) :
    Prop where
  signed : ∀ macKey text, .signed macKey text ∈ r.2 → 32 < text.length
  stage : ∀ id nonce, r.1.stage id = .challenging nonce →
    d.stage id = .challenging nonce ∨ ∃ rest, r.2 = .nonceDrawn nonce :: rest

/-- Nothing is reported as verified. -/
def NotVerified (out : List DashboardOut) : Prop :=
  ∀ keyId, .result (.verified keyId) ∉ out

section

variable {m}

theorem signPi4Request_mem {env : SignEnv} {path body : List UInt8}
    {key : Option (Bytes 32)} {o : DashboardOut}
    (ho : o ∈ (signPi4Request env path body key).toList) :
    ∃ macKey, o = .signed macKey (signedText env path body) := by
  obtain ⟨macKey, -, rfl⟩ := Option.map_eq_some_iff.mp (Option.mem_toList.mp ho)
  exact ⟨macKey, rfl⟩

/-- A handler that moves to a stage other than waiting for a challenge answer. -/
theorem dashboardEffect_toStage {d : Dashboard} (id : ℕ) {stage : ChallengeStage}
    (hstage : stage.waits = false) {out : List DashboardOut}
    (hout : ∀ macKey text, .signed macKey text ∈ out → 32 < text.length) :
    DashboardEffect d (d.toStage id stage, out) := by
  refine ⟨hout, ?_⟩
  intro id' nonce h
  replace h : (d.toStage id stage).stage id' = .challenging nonce := h
  by_cases hid : id' = id
  · rw [hid, d.toStage_self] at h
    rw [h] at hstage
    cases hstage
  · rw [d.toStage_of_ne hid] at h
    exact Or.inl h

theorem dashboardEffect_finish (d : Dashboard) (id : ℕ) (r : ChallengeResult) :
    DashboardEffect d (d.finish id r) := by
  refine dashboardEffect_toStage id rfl ?_
  intro macKey text h
  cases List.mem_singleton.mp h

theorem dashboardEffect_queryStatus (id : ℕ) (env : SignEnv) (polls : Option ℕ)
    (d : Dashboard) : DashboardEffect d (queryStatus id env polls d) := by
  refine dashboardEffect_toStage id rfl ?_
  intro macKey text h
  obtain ⟨macKey', heq⟩ := signPi4Request_mem h
  obtain ⟨-, rfl⟩ := DashboardOut.signed.inj heq
  exact length_signedText env (by decide) _

theorem notVerified_signPi4Request (env : SignEnv) (path body : List UInt8)
    (key : Option (Bytes 32)) :
    NotVerified (signPi4Request env path body key).toList := by
  intro keyId h
  obtain ⟨macKey, heq⟩ := signPi4Request_mem h
  cases heq

theorem dashboardEffect_pushKey (id : ℕ) (env : SignEnv) (d : Dashboard) :
    DashboardEffect d (pushKey id env d) ∧ NotVerified (pushKey id env d).2 := by
  rw [pushKey]
  split
  · refine ⟨dashboardEffect_toStage id rfl ?_, ?_⟩
    · intro macKey text h
      obtain ⟨macKey', heq⟩ := signPi4Request_mem h
      obtain ⟨-, rfl⟩ := DashboardOut.signed.inj heq
      exact length_signedText env (by decide) _
    · dsimp only
      exact notVerified_signPi4Request env _ _ _
  · refine ⟨dashboardEffect_finish d id _, ?_⟩
    intro keyId h
    cases List.mem_singleton.mp h

theorem dashboardEffect_sendChallenge (id : ℕ) (env : SignEnv)
    (nonce : Bytes 32) (d : Dashboard) :
    DashboardEffect d (sendChallenge id env nonce d) ∧
      NotVerified (sendChallenge id env nonce d).2 := by
  rw [sendChallenge]
  split
  · refine ⟨dashboardEffect_toStage id rfl ?_, ?_⟩
    · intro macKey text h
      simp at h
    · intro keyId h
      simp at h
  · refine ⟨⟨?_, ?_⟩, ?_⟩
    · intro macKey text h
      rcases List.mem_cons.mp h with h | h
      · cases h
      · obtain ⟨macKey', heq⟩ := signPi4Request_mem h
        obtain ⟨-, rfl⟩ := DashboardOut.signed.inj heq
        exact length_signedText env (by decide) _
    · intro id' nonce' h
      replace h : (d.toStage id (.challenging nonce)).stage id' =
        .challenging nonce' := h
      by_cases hid : id' = id
      · rw [hid, d.toStage_self] at h
        exact Or.inr ⟨_, by rw [ChallengeStage.challenging.inj h]⟩
      · rw [d.toStage_of_ne hid] at h
        exact Or.inl h
    · intro keyId h
      rcases List.mem_cons.mp h with h | h
      · cases h
      · exact notVerified_signPi4Request env _ _ _ keyId h

theorem dashboardEffect_handleStatusReply (id : ℕ) (env : SignEnv)
    (nonce : Bytes 32) (reply : Option (List UInt8)) (polls : Option ℕ)
    (d : Dashboard) :
    DashboardEffect d (handleStatusReply id env nonce reply polls d) ∧
      NotVerified (handleStatusReply id env nonce reply polls d).2 := by
  simp only [handleStatusReply]
  split
  · split
    · exact dashboardEffect_sendChallenge id env nonce d
    · exact dashboardEffect_pushKey id env d
  · split
    · obtain ⟨⟨hsigned, hstage⟩, hnot⟩ := dashboardEffect_sendChallenge id env
        nonce { d with pi4LoadedKeyId := reply }
      exact ⟨⟨hsigned, hstage⟩, hnot⟩
    · split
      · exact ⟨dashboardEffect_finish d id _, by simp [NotVerified, Dashboard.finish]⟩
      · exact ⟨dashboardEffect_queryStatus id env _ d,
          notVerified_signPi4Request env _ _ _⟩

/-- The other results are no verifications. -/
theorem notVerified_of_ne {r : ChallengeResult} (h : ∀ keyId, r ≠ .verified keyId) :
    NotVerified [.result r] := by
  intro keyId hmem
  exact h keyId (DashboardOut.result.inj (List.mem_singleton.mp hmem)).symm

/-- The events other than the answer to a challenge. -/
theorem dashboardEffect_challengeStep (id : ℕ) (d : Dashboard)
    (ev : ChallengeEvent) (hev : ∀ pi4Hmac keyId, ev ≠ .challengeReply pi4Hmac keyId) :
    DashboardEffect d (challengeStep m id d (d.stage id) ev) ∧
      NotVerified (challengeStep m id d (d.stage id) ev).2 := by
  have hrefl : DashboardEffect d (d, []) := ⟨by simp, fun _ _ h => Or.inl h⟩
  rw [challengeStep.eq_def]
  split
  · rw [handleChallengePi4]
    split
    · exact ⟨dashboardEffect_queryStatus id _ _ d,
        notVerified_signPi4Request _ _ _ _⟩
    · refine ⟨⟨?_, fun _ _ h => Or.inl h⟩, notVerified_of_ne (by simp)⟩
      intro macKey text h
      cases List.mem_singleton.mp h
  · exact dashboardEffect_handleStatusReply id _ _ _ _ d
  · split
    · exact ⟨dashboardEffect_queryStatus id _ _ d,
        notVerified_signPi4Request _ _ _ _⟩
    · exact ⟨dashboardEffect_finish d id _, notVerified_of_ne (by simp)⟩
  · exact ⟨dashboardEffect_finish d id _, notVerified_of_ne (by simp)⟩
  · exact absurd rfl (hev _ _)
  · exact ⟨dashboardEffect_finish d id _, notVerified_of_ne (by simp)⟩
  · exact ⟨hrefl, by simp [NotVerified]⟩

theorem challengeStep_reply (id : ℕ) (d : Dashboard)
    (pi4Hmac keyId : List UInt8) :
    challengeStep m id d (d.stage id) (.challengeReply pi4Hmac keyId) =
      match d.stage id with
      | .challenging nonce => handleChallengeReply m id nonce pi4Hmac keyId d
      | _ => (d, []) := by
  cases d.stage id <;> rfl

/-- A verification is reported exactly for an answer that verifies, with the key id
of that answer. -/
theorem verified_mem_iff (d : Dashboard) (ev : DashboardEvent)
    (keyId : List UInt8) :
    .result (.verified keyId) ∈ (dashboardStep m d ev).2 ↔
      ∃ id pi4Hmac, ev = .challenge id (.challengeReply pi4Hmac keyId) ∧
        (verifiedBy m d ev).isSome := by
  cases ev with
  | challenge id ev =>
      cases ev with
      | challengeReply pi4Hmac keyId' =>
          simp only [dashboardStep, challengeStep_reply, verifiedBy]
          cases d.stage id with
          | challenging nonce =>
              simp only [handleChallengeReply]
              cases d.macKey with
              | none => simp [Dashboard.finish]
              | some macKey =>
                  by_cases hver : verifies m macKey nonce pi4Hmac = true
                  · simp [hver, Dashboard.finish, eq_comm]
                  · simp [hver, Dashboard.finish]
          | _ => simp
      | _ =>
          refine iff_of_false ?_ (by simp)
          refine (dashboardEffect_challengeStep id d _ ?_).2 keyId
          intro pi4Hmac keyId' heq
          cases heq
  | _ => simp [dashboardStep]

theorem dashboardEffect_dashboardStep (d : Dashboard) (ev : DashboardEvent) :
    DashboardEffect d (dashboardStep m d ev) := by
  have hsame (d' : Dashboard) (h : d'.stage = d.stage) :
      DashboardEffect d (d', []) :=
    ⟨by simp, fun id nonce hstage => Or.inl (h ▸ hstage)⟩
  cases ev with
  | challenge id ev =>
      cases ev with
      | challengeReply pi4Hmac keyId =>
          simp only [dashboardStep, challengeStep_reply]
          split
          · simp only [handleChallengeReply]
            split
            · exact dashboardEffect_finish d id _
            · split
              · exact ⟨(dashboardEffect_finish _ id _).signed,
                  (dashboardEffect_finish _ id _).stage⟩
              · exact dashboardEffect_finish d id _
          · exact hsame d rfl
      | _ =>
          refine (dashboardEffect_challengeStep id d _ ?_).1
          intro pi4Hmac keyId heq
          cases heq
  | _ => exact hsame _ rfl

end

/-! ## Whole runs -/

/-- A handler that waits for the answer to a challenge drew its nonce, and nothing
had been tagged with it before. -/
structure ChallengePast (t : List WifiOut) (s : WifiState) : Prop where
  signed : ∀ macKey text, .inl (.signed macKey text) ∈ t → 32 < text.length
  waiting : ∀ id nonce, s.1.stage id = .challenging nonce →
    ∃ early late, t = early ++ .inl (.nonceDrawn nonce) :: late ∧
      nonce.toList ∉ (wifiMacs early).map Prod.snd

variable {m hse api} {t : List WifiOut} {s : WifiState}

/-- A step of the other two leaves the dashboard as it is. -/
theorem ChallengePast.append_inr (h : ChallengePast t s)
    (out : List (PicoOut ⊕ Pi4Out)) (rest : Pico × Pi4) :
    ChallengePast (t ++ out.map Sum.inr) (s.1, rest) := by
  refine ⟨?_, ?_⟩
  · intro macKey text hmem
    rcases List.mem_append.mp hmem with hmem | hmem
    · exact h.signed macKey text hmem
    · obtain ⟨o, -, heq⟩ := List.mem_map.mp hmem
      cases heq
  · intro id nonce hstage
    obtain ⟨early, late, rfl, hfresh⟩ := h.waiting id nonce hstage
    exact ⟨early, late ++ out.map Sum.inr, by simp, hfresh⟩

theorem ChallengePast.step (h : ChallengePast t s) (i : WifiIn)
    (hrules : ChallengeRules m hse api t s i) :
    ChallengePast (t ++ ((wifiLink m hse api).step s i).2)
      ((wifiLink m hse api).step s i).1 := by
  obtain ⟨hfresh, -⟩ := hrules
  rcases i with ev | i
  · have hstep : (wifiLink m hse api).step s (.inl ev) =
        (((dashboardStep m s.1 ev).1, s.2),
          (dashboardStep m s.1 ev).2.map Sum.inl) := rfl
    rw [hstep] at hfresh ⊢
    have heffect := dashboardEffect_dashboardStep (m := m) s.1 ev
    refine ⟨?_, ?_⟩
    · intro macKey text hmem
      rcases List.mem_append.mp hmem with hmem | hmem
      · exact h.signed macKey text hmem
      · obtain ⟨o, ho, heq⟩ := List.mem_map.mp hmem
        exact heffect.signed macKey text (Sum.inl.inj heq ▸ ho)
    · intro id nonce hstage
      rcases heffect.stage id nonce hstage with hold | ⟨rest, hdrawn⟩
      · obtain ⟨early, late, rfl, hearly⟩ := h.waiting id nonce hold
        exact ⟨early, _, by rw [List.append_assoc, List.cons_append], hearly⟩
      · refine ⟨t, rest.map Sum.inl, by rw [hdrawn]; rfl, hfresh nonce ?_⟩
        rw [hdrawn]
        exact List.mem_cons_self
  · exact h.append_inr _ _

/-- No handler of the challenge is running. -/
def ChallengeIdle (s : WifiState) : Prop :=
  ∀ id, s.1.stage id = .idle

theorem challengePast_of_reach {s₀ : WifiState} (hidle : ChallengeIdle s₀)
    (h : (wifiLink m hse api).Reach (ChallengeRules m hse api) s₀ t s) :
    ChallengePast t s := by
  refine h.invariant ⟨by simp, ?_⟩ fun t s i hpast hrules => hpast.step i hrules
  intro id nonce hstage
  rw [hidle id] at hstage
  cases hstage

/-- Since the nonce of the handler `id` was drawn, the receiver computed its HMAC
under the MAC key of the dashboard. -/
def AnsweredDuring (t : List WifiOut) (d : Dashboard) (id : ℕ) : Prop :=
  ∃ macKey nonce early late o, d.macKey = some macKey ∧
    d.stage id = .challenging nonce ∧
    t = early ++ .inl (.nonceDrawn nonce) :: late ∧
    .inr (.inr o) ∈ late ∧ o.mac = some (macKey, nonce.toList)

/-- Only the receiver tags a string of the length of a nonce, and only after the
nonce was drawn. -/
theorem answeredDuring_of_mac (hpast : ChallengePast t s) {id : ℕ}
    {macKey nonce : Bytes 32} (hkey : s.1.macKey = some macKey)
    (hstage : s.1.stage id = .challenging nonce)
    (hmac : (macKey, nonce.toList) ∈ wifiMacs t) : AnsweredDuring t s.1 id := by
  obtain ⟨early, late, rfl, hfresh⟩ := hpast.waiting id nonce hstage
  have hlate : (macKey, nonce.toList) ∈ wifiMacs late := by
    rw [wifiMacs, List.filterMap_append] at hmac
    rcases List.mem_append.mp hmac with hmac | hmac
    · exact absurd (List.mem_map_of_mem hmac) hfresh
    · exact hmac
  obtain ⟨o, ho, heq⟩ := List.mem_filterMap.mp hlate
  rcases o with o | o | o
  · cases o with
    | signed macKey' text =>
        obtain ⟨rfl, rfl⟩ := Prod.mk.inj (Option.some.inj heq)
        have hlen := hpast.signed macKey' nonce.toList
          (List.mem_append_right _ (List.mem_cons_of_mem _ ho))
        rw [nonce.toList_length] at hlen
        exact absurd hlen (Nat.lt_irrefl 32)
    | _ => cases heq
  · cases o with
    | hs2Sent macKey' e np hs2 =>
        obtain ⟨-, hbody⟩ := Prod.mk.inj (Option.some.inj heq)
        have hlen := congrArg List.length hbody
        rw [nonce.toList_length, (blobBody hs2).toList_length] at hlen
        omega
    | _ => cases heq
  · exact ⟨macKey, nonce, early, late, o, hkey, hstage, rfl, ho, heq⟩

theorem verifiedBy_eq_some {d : Dashboard} {id : ℕ} {pi4Hmac keyId : List UInt8}
    {x : Bytes 32 × Bytes 32}
    (h : verifiedBy m d (.challenge id (.challengeReply pi4Hmac keyId)) = some x) :
    d.macKey = some x.1 ∧ d.stage id = .challenging x.2 := by
  simp only [verifiedBy] at h
  split at h
  · next nonce macKey hstage hkey =>
      split at h
      · obtain rfl := Option.some.inj h
        exact ⟨hkey, hstage⟩
      · cases h
  · cases h

/-- At every step of every run, a verification agrees with the receiver and with
the loaded key exactly if the answer that verifies carries the id of that key. -/
theorem challenge_verified_iff {s₀ : WifiState} (hidle : ChallengeIdle s₀)
    (h : (wifiLink m hse api).Reach (ChallengeRules m hse api) s₀ t s)
    (ev : DashboardEvent) (hok : ChallengeRules m hse api t s (.inl ev)) :
    (∀ keyId, .inl (.result (.verified keyId)) ∈
        ((wifiLink m hse api).step s (.inl ev)).2 →
      (∃ id, AnsweredDuring t s.1 id) ∧ s.1.loadedKeyId = some keyId) ↔
    ∀ id pi4Hmac keyId, ev = .challenge id (.challengeReply pi4Hmac keyId) →
      (verifiedBy m s.1 ev).isSome → s.1.loadedKeyId = some keyId := by
  have hmem (keyId : List UInt8) :
      .inl (.result (.verified keyId)) ∈
          ((wifiLink m hse api).step s (.inl ev)).2 ↔
        .result (.verified keyId) ∈ (dashboardStep m s.1 ev).2 :=
    List.mem_map_of_injective Sum.inl_injective
  constructor
  · rintro hclaim id pi4Hmac keyId rfl hver
    exact (hclaim keyId ((hmem keyId).mpr
      ((verified_mem_iff s.1 _ keyId).mpr ⟨id, pi4Hmac, rfl, hver⟩))).2
  · intro hcond keyId hout
    obtain ⟨id, pi4Hmac, rfl, hver⟩ :=
      (verified_mem_iff s.1 ev keyId).mp ((hmem keyId).mp hout)
    refine ⟨⟨id, ?_⟩, hcond id pi4Hmac keyId rfl hver⟩
    obtain ⟨x, hx⟩ := Option.isSome_iff_exists.mp hver
    obtain ⟨hkey, hstage⟩ := verifiedBy_eq_some hx
    exact answeredDuring_of_mac (challengePast_of_reach hidle h) hkey hstage
      (hok.2 x hx)

/-! ## A changed key id -/

/-- The WiFi link with readable primitives. -/
def openWifi : Machine WifiState WifiIn WifiOut :=
  wifiLink Mbedtls.transparent .idle (SstApi.reference Mbedtls.transparent)

abbrev openRules : List WifiOut → WifiState → WifiIn → Prop :=
  ChallengeRules Mbedtls.transparent .idle (SstApi.reference Mbedtls.transparent)

/-- Dashboard and receiver hold the same key. -/
def wifiStart : WifiState :=
  ({ macKey := some sharedKey.macKey
     loadedKeyId := some (hexString sharedKey.keyId.toList)
     loadedCipherKey := some sharedKey.aesKey.toList
     pi4LoadedKeyId := none
     stage := fun _ => .idle },
    Pico.off Flash.erased, ⟨bothKeyed.2, none⟩)

/-- The receiver is found to hold the key, gets the challenge and answers it. -/
def challengeRun : List WifiIn :=
  let env : SignEnv := ⟨1700000000, Bytes.zero 12⟩
  let nonce : Bytes 32 := List.Vector.replicate 32 3
  [.inl (.challenge 0 (.press env)),
    .inl (.challenge 0 (.statusReply (some (hexString sharedKey.keyId.toList))
      env nonce)),
    .inr (.inr (.request (challengeBody nonce) (Bytes.zero 32))),
    .inr (.inr .respond)]

/-- The answer of the receiver as it arrives, with the key id given. -/
def arrivingReply (keyId : List UInt8) : DashboardEvent :=
  .challenge 0 (.challengeReply (hexString sharedKey.macKey.toList) keyId)

theorem reach_challengeRun : openWifi.Reach openRules wifiStart
    (openWifi.trace wifiStart challengeRun) (openWifi.run wifiStart challengeRun) := by
  apply Machine.reach_run
  decide +kernel

/-- An answer whose key id was changed on the way is reported as verified with
that key id. -/
theorem forged_key_id_verified :
    let t := openWifi.trace wifiStart challengeRun
    let s := openWifi.run wifiStart challengeRun
    let forged := arrivingReply (ascii "ffffffffffffffff")
    openWifi.Reach openRules wifiStart t s ∧ openRules t s (.inl forged) ∧
      (openWifi.step s (.inl forged)).2 =
        [.inl (.result (.verified (ascii "ffffffffffffffff")))] ∧
      s.1.loadedKeyId = some (ascii "0505050505050505") := by
  refine ⟨reach_challengeRun, ?_, ?_, ?_⟩
  · decide +kernel
  · decide +kernel
  · decide +kernel

/-- The answer as the receiver gave it agrees. -/
theorem challenge_verified_iff_honest :
    let t := openWifi.trace wifiStart challengeRun
    let s := openWifi.run wifiStart challengeRun
    ∀ keyId, .inl (.result (.verified keyId)) ∈
        (openWifi.step s (.inl (arrivingReply (ascii "0505050505050505")))).2 →
      (∃ id, AnsweredDuring t s.1 id) ∧ s.1.loadedKeyId = some keyId := by
  refine (challenge_verified_iff (fun _ => rfl) reach_challengeRun
    (arrivingReply (ascii "0505050505050505")) (by decide +kernel)).mpr ?_
  intro id pi4Hmac keyId heq _
  cases heq
  decide +kernel

end LifiAuth
