import LifiAuth.Wifi.Agreement

/-!
# First messages and challenges under one MAC key

The tag of an `SST_HS1` is over 32 bytes, and so is the answer to a challenge.  Every
other string that is tagged is longer, so the sender takes a first message that no
receiver made only where a challenge nonce served as its bytes.
-/

namespace LifiAuth

open Support

variable (m : Mbedtls) (hse : HeatshrinkEncoder) (api : SstApi)

/-! ## Strings of the length of a first message -/

/-- The key and the bytes of a tag on a challenge nonce or on a first message. -/
def shortMac : WifiOut → Option (Bytes 32 × List UInt8)
  | .inr (.inr (.nonceMaced macKey nonce)) => some (macKey, nonce.toList)
  | .inr (.inr (.loop (.hs1Made key _ hs1))) =>
      some (key.macKey, (hs1.drop 8).take 32)
  | _ => none

def shortMacs (t : List WifiOut) : List (Bytes 32 × List UInt8) :=
  t.filterMap shortMac

/-- A first message at the sender's uart. -/
def deliveredHs1 : WifiIn → Option (Bytes 72)
  | .inr (.inl (_, .uart (.hs1 hs1))) => some hs1
  | _ => none

/-- The first messages that `parse_handshake_1` made. -/
def madeHs1s (t : List WifiOut) : List (List UInt8) :=
  t.filterMap fun
    | .inr (.inr (.loop (.hs1Made _ _ hs1))) => some hs1
    | _ => none

/-- What `dash_receiver` wrote to the sender. -/
def pi4Writes (t : List WifiOut) : List (List UInt8) :=
  t.filterMap fun
    | .inr (.inr (.loop (.tx bytes))) => some bytes
    | _ => none

/-- The rules of a run: a first message verifies only if its bytes were tagged, and
`dash_receiver` writes no first message completely. -/
def DomainRules (t : List WifiOut) (s : WifiState) (i : WifiIn) : Prop :=
  (∀ hs1 ∈ deliveredHs1 i,
      m.sstHmacSha256Ex s.2.1.sessionMacKey (hs1Body hs1).toList =
          some (hs1Mac hs1) →
        (s.2.1.sessionMacKey, (hs1Body hs1).toList) ∈ wifiMacs t) ∧
    ∀ hs1 ∈ madeHs1s ((wifiLink m hse api).step s i).2,
      txHeader msgTypeSstHs1 hs1.length ++ hs1 ∉
        pi4Writes ((wifiLink m hse api).step s i).2

instance (t : List WifiOut) (s : WifiState) (i : WifiIn) :
    Decidable (DomainRules m hse api t s i) :=
  inferInstanceAs (Decidable (_ ∧ _))

/-- No first message under the sender's key id carries a challenge nonce that was
tagged under its MAC key, or a first message that was made and not written. -/
def NoReuse (t : List WifiOut) (s : WifiState) (i : WifiIn) : Prop :=
  ∀ hs1 ∈ deliveredHs1 i, hs1KeyId hs1 = s.2.1.sessionKeyId →
    (s.2.1.sessionMacKey, (hs1Body hs1).toList) ∉ shortMacs t

instance (t : List WifiOut) (s : WifiState) (i : WifiIn) :
    Decidable (NoReuse t s i) :=
  inferInstanceAs (Decidable (∀ _ ∈ _, _))

/-! ## Lengths -/

section

variable {m hse api}

theorem length_frameReportJson (ev : ReporterEvent) :
    32 < (frameReportJson ev).length := by
  have hhead : (ascii "\x7b\"event\":\"frame_decrypted\",\"key_id\":\"").length =
    37 := by decide
  simp only [frameReportJson, List.length_append, hhead]
  omega

theorem length_keyLoadedJson (keyId : Bytes 8) :
    32 < (keyLoadedJson keyId).length := by
  have hhead : (ascii "\x7b\"event\":\"key_loaded\",\"key_id\":\"").length = 32 := by
    decide
  simp only [keyLoadedJson, List.length_append, length_hexString, hhead,
    List.Vector.toList_length]
  omega

theorem length_statusMessageJson (message : List UInt8) :
    32 < (statusMessageJson message).length := by
  have hhead : (ascii "\x7b\"event\":\"status_message\",\"message\":\"").length =
    37 := by decide
  simp only [statusMessageJson, List.length_append, hhead]
  omega

/-- What the tag of an output of the receiver is over. -/
def Pi4Out.ShortOnly (o : Pi4Out) : Prop :=
  ∀ x, o.mac = some x → x.2.length = 32 → shortMac (.inr (.inr o)) = some x

theorem shortOnly_dashboardHttpPost {json : List UInt8} (hjson : 32 < json.length)
    (p : Pi4) : ∀ o ∈ dashboardHttpPost m json p, o.ShortOnly := by
  intro o ho x hx hlen
  rw [dashboardHttpPost] at ho
  split at ho
  · rw [List.mem_singleton.mp ho] at hx
    obtain rfl := Option.some.inj hx
    exact absurd hlen hjson.ne'
  · cases ho

/-- A third message is longer. -/
theorem shortOnly_loop (hapi : api.Lawful m) {d d' : Dash} {env : DashEnv}
    {ev : DashEvent} {o : DashOut} (ho : o.Explained m api d env ev d') :
    (Pi4Out.loop o).ShortOnly := by
  intro x hx hlen
  cases o with
  | hs1Made key e hs1 => exact hx
  | hs2Verified key e hs2 hs3 =>
      obtain ⟨-, -, -, hcheck⟩ := ho
      obtain ⟨-, plain, ctext, mac, -, -, -, -, -, rfl⟩ :=
        hapi.check _ _ _ _ _ hcheck
      obtain rfl := Option.some.inj hx
      rw [List.length_take, List.Vector.toList_length] at hlen
      exact absurd hlen (by decide)
  | _ => cases hx

theorem shortOnly_pi4Step (hapi : api.Lawful m) (p : Pi4) (ev : Pi4Event) :
    ∀ o ∈ (pi4Step m api p ev).2, o.ShortOnly := by
  cases ev with
  | loop env ev =>
      intro o ho
      obtain ⟨o', ho', rfl⟩ := List.mem_map.mp ho
      exact shortOnly_loop hapi (explained_dashStep m api p.dash env ev o' ho')
  | request body stack =>
      intro o ho x hx _
      simp only [pi4Step, challengeBegin] at ho
      split at ho
      · split at ho
        · split at ho
          · rw [List.mem_singleton.mp ho] at hx ⊢
            exact hx
          · cases ho
        · cases ho
      · cases ho
  | respond =>
      intro o ho x hx _
      simp only [pi4Step, challengeEnd] at ho
      split at ho
      · cases ho
      · rw [List.mem_singleton.mp ho] at hx
        cases hx
  | frameReport ev =>
      simp only [pi4Step]
      split
      · exact shortOnly_dashboardHttpPost (length_frameReportJson ev) p
      · exact List.forall_mem_nil _
  | keyLoadedReport keyId =>
      exact shortOnly_dashboardHttpPost (length_keyLoadedJson keyId) p
  | statusReport message =>
      exact shortOnly_dashboardHttpPost (length_statusMessageJson message) p

/-- Only challenge nonces and first messages have tags over 32 bytes. -/
theorem shortMac_of_step (hapi : api.Lawful m) {s : WifiState} {i : WifiIn}
    {o : WifiOut} (ho : o ∈ ((wifiLink m hse api).step s i).2)
    {x : Bytes 32 × List UInt8} (hx : wifiMac o = some x)
    (hlen : x.2.length = 32) : shortMac o = some x := by
  rcases i with ev | ⟨env, ev⟩ | ev
  · obtain ⟨o', ho', rfl⟩ := List.mem_map.mp ho
    cases o' with
    | signed macKey text =>
        obtain rfl := Option.some.inj hx
        have hlong := (dashboardEffect_dashboardStep (m := m) s.1 ev).signed _ _ ho'
        exact absurd hlen hlong.ne'
    | _ => cases hx
  · obtain ⟨o₁, ho₁, rfl⟩ := List.mem_map.mp ho
    obtain ⟨o₂, -, rfl⟩ := List.mem_map.mp ho₁
    cases o₂ with
    | hs2Sent macKey e np hs2 =>
        obtain rfl := Option.some.inj hx
        rw [List.Vector.toList_length] at hlen
        exact absurd hlen (by decide)
    | _ => cases hx
  · obtain ⟨o₁, ho₁, rfl⟩ := List.mem_map.mp ho
    obtain ⟨o₂, ho₂, rfl⟩ := List.mem_map.mp ho₁
    exact shortOnly_pi4Step hapi s.2.2 ev o₂ ho₂ x hx hlen

/-! ## Whole runs -/

variable {t : List WifiOut} {s s₀ : WifiState}

theorem shortMacs_of_wifiMacs (hapi : api.Lawful m)
    {ok : List WifiOut → WifiState → WifiIn → Prop}
    (h : (wifiLink m hse api).Reach ok s₀ t s) {x : Bytes 32 × List UInt8}
    (hx : x ∈ wifiMacs t) (hlen : x.2.length = 32) : x ∈ shortMacs t := by
  obtain ⟨o, ho, hmac⟩ := List.mem_filterMap.mp hx
  obtain ⟨t₁, s₁, i, -, -, hout⟩ := h.emitted_of_mem ho
  exact List.mem_filterMap.mpr ⟨o, ho, shortMac_of_step hapi hout hmac hlen⟩

/-- A delivered first message does not open. -/
theorem openHs1_eq_none (hapi : api.Lawful m)
    {ok : List WifiOut → WifiState → WifiIn → Prop}
    (h : (wifiLink m hse api).Reach ok s₀ t s) {env : PicoEnv} {hs1 : Bytes 72}
    (hrules : DomainRules m hse api t s (.inr (.inl (env, .uart (.hs1 hs1)))))
    (hreuse : NoReuse t s (.inr (.inl (env, .uart (.hs1 hs1))))) :
    openHs1 m hs1 s.2.1 = none := by
  by_contra hopen
  obtain ⟨entityNonce, hopen⟩ := Option.ne_none_iff_exists'.mp hopen
  rw [openHs1] at hopen
  split at hopen
  · cases hopen
  · next hid =>
      split at hopen
      · cases hopen
      · next hmac =>
          have hmem := hrules.1 hs1 rfl (not_not.mp hmac)
          refine hreuse hs1 rfl (not_not.mp hid) ?_
          exact shortMacs_of_wifiMacs hapi h hmem (hs1Body hs1).toList_length

end

/-- The rules, and the condition under which tags keep to their domains. -/
def SeparatedRules (t : List WifiOut) (s : WifiState) (i : WifiIn) : Prop :=
  DomainRules m hse api t s i ∧ NoReuse t s i

instance (t : List WifiOut) (s : WifiState) (i : WifiIn) :
    Decidable (SeparatedRules m hse api t s i) :=
  inferInstanceAs (Decidable (_ ∧ _))

/-- In every run in which no first message reuses tagged bytes, the sender answers none
and none changes its state. -/
theorem hs1_never_accepted (hapi : api.Lawful m) {s₀ s : WifiState}
    {t : List WifiOut}
    (h : (wifiLink m hse api).Reach (SeparatedRules m hse api) s₀ t s) :
    (∀ macKey e np hs2, .inr (.inl (.hs2Sent macKey e np hs2)) ∉ t) ∧
      ∀ env hs1, SeparatedRules m hse api t s
          (.inr (.inl (env, .uart (.hs1 hs1)))) →
        (wifiLink m hse api).step s (.inr (.inl (env, .uart (.hs1 hs1)))) =
          (s, []) := by
  refine ⟨?_, ?_⟩
  · intro macKey e np hs2 hmem
    obtain ⟨t₁, s₁, i, hreach, hok, hout⟩ := h.emitted_of_mem hmem
    rcases i with ev | ⟨env, ev⟩ | ev
    · obtain ⟨o, -, heq⟩ := List.mem_map.mp hout
      cases heq
    · obtain ⟨o₁, ho₁, heq⟩ := List.mem_map.mp hout
      obtain ⟨o₂, ho₂, rfl⟩ := List.mem_map.mp ho₁
      cases heq
      obtain ⟨hs1, rfl, hopen⟩ := opened_of_hs2Sent m hse ho₂
      rw [openHs1_eq_none hapi hreach hok.1 hok.2] at hopen
      cases hopen
    · obtain ⟨o₁, ho₁, heq⟩ := List.mem_map.mp hout
      obtain ⟨o₂, -, rfl⟩ := List.mem_map.mp ho₁
      cases heq
  · intro env hs1 hok
    have hhandle : handleHs1 m env hs1 s.2.1 = (s.2.1, []) := by
      rw [handleHs1, openHs1_eq_none hapi h hok.1 hok.2]
    have hstep : (wifiLink m hse api).step s (.inr (.inl (env, .uart (.hs1 hs1)))) =
        ((s.1, (handleHs1 m env hs1 s.2.1).1, s.2.2),
          ((handleHs1 m env hs1 s.2.1).2.map Sum.inl).map Sum.inr) := rfl
    rw [hstep, hhandle]
    rfl

/-! ## A challenge answer as a first message -/

/-- All three programs hold the key. -/
def allKeyed : WifiState :=
  (wifiStart.1, bothKeyed.1, wifiStart.2.2)

abbrev openDomainRules : List WifiOut → WifiState → WifiIn → Prop :=
  DomainRules .transparent .idle (SstApi.reference .transparent)

/-- An initialization vector and a block that decrypts to well padded bytes. -/
def chosenIv : Bytes 16 := Bytes.zero 16
def chosenCtext : Bytes 16 := List.Vector.replicate 16 7

/-- The receiver is sent the two as a nonce, and answers. -/
def oracleRun : List WifiIn :=
  [.inr (.inr (.request (challengeBody (chosenIv.append chosenCtext)) (Bytes.zero 32))),
    .inr (.inr .respond)]

/-- The answer, as the tag of a first message. -/
def answeredHs1 : Bytes 72 :=
  hs1Message sharedKey.keyId chosenIv chosenCtext sharedKey.macKey

def answeredInput : WifiIn :=
  .inr (.inl ({ PicoEnv.salted with
    hs2 := ⟨List.Vector.replicate 8 2, Bytes.zero 16⟩ }, .uart (.hs1 answeredHs1)))

/-- What the sender makes of it. -/
def answeredHs2 : Bytes 80 :=
  hsBlob (Bytes.zero 16) (Mbedtls.padPkcs7 (hsPlain 2 (List.Vector.replicate 8 2)
    (List.Vector.replicate 8 7))) sharedKey.macKey

/-- By the rules, a first message made of a challenge answer is answered with a second
one, and replaces the saved nonce; the receiver made none. -/
theorem challenge_answer_opens_handshake :
    let t := openWifi.trace allKeyed oracleRun
    let s := openWifi.run allKeyed oracleRun
    openWifi.Reach openDomainRules allKeyed t s ∧ openDomainRules t s answeredInput ∧
      t = [.inr (.inr (.nonceMaced sharedKey.macKey (chosenIv.append chosenCtext))),
        .inr (.inr (.answered (hexString (hs1Mac answeredHs1).toList)
          (hexString sharedKey.keyId.toList)))] ∧
      (openWifi.step s answeredInput).2 =
        [.inr (.inl (.hs2Sent sharedKey.macKey (List.Vector.replicate 8 7)
          (List.Vector.replicate 8 2) answeredHs2))] ∧
      s.2.1.savedPicoNonce = Bytes.zero 8 ∧
      (openWifi.step s answeredInput).1.2.1.savedPicoNonce =
        List.Vector.replicate 8 2 := by
  refine ⟨?_, ?_, ?_, ?_, ?_, ?_⟩
  · apply Machine.reach_run
    decide +kernel
  · decide +kernel
  · decide +kernel
  · decide +kernel
  · decide +kernel
  · decide +kernel

/-- A first message with another tag. -/
def guessedInput : WifiIn :=
  .inr (.inl (PicoEnv.salted, .uart (.hs1 (hs1Message sharedKey.keyId chosenIv
    chosenIv (Bytes.zero 32)))))

/-- After the same answer, the sender drops it. -/
theorem hs1_never_accepted_guessed :
    let t := openWifi.trace allKeyed oracleRun
    let s := openWifi.run allKeyed oracleRun
    (∀ macKey e np hs2, .inr (.inl (.hs2Sent macKey e np hs2)) ∉ t) ∧
      openWifi.step s guessedInput = (s, []) := by
  have hreach : openWifi.Reach (SeparatedRules .transparent .idle
      (SstApi.reference .transparent)) allKeyed (openWifi.trace allKeyed oracleRun)
      (openWifi.run allKeyed oracleRun) := by
    apply Machine.reach_run
    decide +kernel
  obtain ⟨hnone, hdropped⟩ := hs1_never_accepted .transparent .idle
    (SstApi.reference .transparent) (SstApi.lawful_reference _) hreach
  exact ⟨hnone, hdropped _ _ (by decide +kernel)⟩

end LifiAuth
