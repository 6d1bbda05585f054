import LifiAuth.Wifi.Agreement
import LifiAuth.Wifi.Presence

/-!
# Frame reports as a proof of presence

`dash_receiver` reports decrypted frames and the dashboard credits every body with a
right tag, whatever it says and however often it came before.  The report behind a set
flag is recent if every credited request is the first delivery of a fresh report.
-/

namespace LifiAuth

open Support

variable (m : Mbedtls) (hse : HeatshrinkEncoder) (api : SstApi)
  (hmacSha256 : List UInt8 → List UInt8 → Bytes 32)
  (jsonLoads : List UInt8 → LoadedJson)

/-! ## The system -/

abbrev ReportState := Presence × WifiState

/-- A timed step of the dashboard's presence globals, or of the programs on the WiFi. -/
inductive ReportEvent where
  | pi4Frame (body sig : List UInt8)
  | setRx2Port (port : List UInt8)
  | health
  | link (i : WifiIn)

abbrev ReportOut := PresenceOut ⊕ (ℚ × WifiOut)

/-- Setting `_mac_key` ends the proof. -/
def keyChange : WifiIn → Presence → Presence
  | .inl (.macKeySet macKey) => reloadKey (macKey.map List.Vector.toList)
  | _ => id

def reportLink : Machine ReportState (ℚ × ReportEvent) ReportOut where
  step s e :=
    match e.2 with
    | .pi4Frame body sig =>
        let (p, out) := handlePi4Frame hmacSha256 jsonLoads e.1 body sig s.1
        ((p, s.2), [.inl out])
    | .setRx2Port port => (({ s.1 with rx2Port := port }, s.2), [])
    | .health => ((pi4HealthMonitor e.1 s.1, s.2), [])
    | .link i =>
        let (w, out) := (wifiLink m hse api).step s.2 i
        ((keyChange i s.1, w), out.map fun o => .inr (e.1, o))

/-- The dashboard has just started with its key. -/
def reportStart (w : WifiState) : ReportState :=
  (.start (w.1.macKey.map List.Vector.toList), w)

/-! ## Reports and credits -/

/-- The time, the key and the text of every report that was tagged and sent. -/
def reports (t : List ReportOut) : List (ℚ × List UInt8 × List UInt8) :=
  t.filterMap fun
    | .inr (time, .inr (.inr (.reported macKey json))) =>
        some (time, macKey.toList, json)
    | _ => none

/-- The key and the body of a request that moved the time stamp. -/
def PresenceOut.credit (o : PresenceOut) : Option (List UInt8 × List UInt8) :=
  if o.result = .attributeError ∨ o.result = .unboundLocalError then
    o.authenticatedBy.map fun key => (key, o.body)
  else none

def credits (t : List ReportOut) : List (List UInt8 × List UInt8) :=
  t.filterMap fun
    | .inl o => o.credit
    | .inr _ => none

/-- The keys and the texts of all tags computed so far. -/
def reportMacs (t : List ReportOut) : List (List UInt8 × List UInt8) :=
  (wifiMacs (t.filterMap fun o => o.getRight?.map Prod.snd)).map fun x =>
    (x.1.toList, x.2)

/-- The key under which a tag is right. -/
def Presence.authenticates (body sig : List UInt8) (p : Presence) :
    Option (List UInt8) :=
  p.checkingKey.filter fun key => hexString (hmacSha256 key body).toList = lower sig

/-- The rules of a run: a tag is right only over bytes that were tagged, and the
monitor finds a WiFi peer. -/
def ReportRules (t : List ReportOut) (s : ReportState) : ℚ × ReportEvent → Prop
  | (_, .pi4Frame body sig) =>
      ∀ key ∈ s.1.authenticates hmacSha256 body sig, (key, body) ∈ reportMacs t
  | (_, .health) => isWifiPeer s.1.rx2Port = true
  | _ => True

instance (t : List ReportOut) (s : ReportState) (e : ℚ × ReportEvent) :
    Decidable (ReportRules hmacSha256 t s e) :=
  match e with
  | (_, .pi4Frame _ _) => inferInstanceAs (Decidable (∀ _ ∈ _, _))
  | (_, .health) => inferInstanceAs (Decidable (_ = true))
  | (_, .setRx2Port _) => inferInstanceAs (Decidable True)
  | (_, .link _) => inferInstanceAs (Decidable True)

/-- Of the tagged bodies, only frame reports come as `/pi4_frame` requests that are
credited, each within the delay and no more often than it was sent. -/
def FirstDelivery (delay : ℚ) (t : List ReportOut) (s : ReportState) :
    ℚ × ReportEvent → Prop
  | (now, .pi4Frame body sig) =>
      ∀ key ∈ s.1.authenticates hmacSha256 body sig, jsonLoads body ≠ .invalid →
        (key, body) ∈ reportMacs t →
          (∃ ev, body = frameReportJson ev) ∧
          (∃ time, now - delay ≤ time ∧ (time, key, body) ∈ reports t) ∧
          (credits t).count (key, body) < ((reports t).map Prod.snd).count (key, body)
  | _ => True

/-- A frame report under the loaded key was sent at time `since` or later. -/
def ReportedSince (since : ℚ) (t : List ReportOut) (s : ReportState) : Prop :=
  ∃ macKey ev time, s.2.1.macKey = some macKey ∧ since ≤ time ∧
    (time, macKey.toList, frameReportJson ev) ∈ reports t

/-- No report was credited more often than it was sent. -/
def CreditedOnce (t : List ReportOut) : Prop :=
  ∀ x, (credits t).count x ≤ ((reports t).map Prod.snd).count x

/-! ## What a step does to the globals -/

section

variable {hmacSha256 jsonLoads} {m} {t out : List ReportOut} {s : ReportState}
  {delay now : ℚ}

/-- A request is not credited and changes nothing, or its tag is right and the time
stamp moves on. -/
theorem handlePi4Frame_effect (body sig : List UInt8) (p : Presence) :
    ((handlePi4Frame hmacSha256 jsonLoads now body sig p).1 = p ∧
        (handlePi4Frame hmacSha256 jsonLoads now body sig p).2.credit = none) ∨
      ∃ key ∈ p.authenticates hmacSha256 body sig, jsonLoads body ≠ .invalid ∧
        (handlePi4Frame hmacSha256 jsonLoads now body sig p).1.macKey = p.macKey ∧
        (handlePi4Frame hmacSha256 jsonLoads now body sig p).1.lastValidFrameTime =
          now ∧
        (handlePi4Frame hmacSha256 jsonLoads now body sig p).2.credit =
          some (key, body) := by
  rcases handlePi4Frame_cases hmacSha256 jsonLoads now body sig p with
    ⟨keyId, result, events, hpost, hplain⟩ |
      ⟨key, hkey, hsig, hjson, p', result, hpost, hcredit, hmacKey, hlast⟩
  · left
    rw [hpost]
    refine ⟨rfl, ?_⟩
    rcases hplain with rfl | rfl
    · simp [PresenceOut.credit]
    · simp [PresenceOut.credit]
  · right
    have hauth : key ∈ p.authenticates hmacSha256 body sig :=
      Option.mem_filter_iff.mpr ⟨hkey, by simpa using hsig⟩
    rw [hpost]
    refine ⟨key, hauth, hjson, hmacKey, hlast, ?_⟩
    rcases hcredit with rfl | rfl
    · rfl
    · rfl

theorem macKey_sendChallenge (id : ℕ) (env : SignEnv) (nonce : Bytes 32)
    (d : Dashboard) : (sendChallenge id env nonce d).1.macKey = d.macKey := by
  rw [sendChallenge]
  split
  · rfl
  · rfl

theorem macKey_pushKey (id : ℕ) (env : SignEnv) (d : Dashboard) :
    (pushKey id env d).1.macKey = d.macKey := by
  rw [pushKey]
  split
  · rfl
  · rfl

theorem macKey_handleStatusReply (id : ℕ) (env : SignEnv) (nonce : Bytes 32)
    (reply : Option (List UInt8)) (polls : Option ℕ) (d : Dashboard) :
    (handleStatusReply id env nonce reply polls d).1.macKey = d.macKey := by
  rw [handleStatusReply.eq_def]
  split
  · split
    · exact macKey_sendChallenge id env nonce d
    · exact macKey_pushKey id env d
  · split
    · exact macKey_sendChallenge id env nonce _
    · split
      · rfl
      · rfl

theorem macKey_challengeStep (id : ℕ) (d : Dashboard) (ev : ChallengeEvent) :
    (challengeStep m id d (d.stage id) ev).1.macKey = d.macKey := by
  rw [challengeStep.eq_def]
  split
  · rw [handleChallengePi4]
    split
    · rfl
    · rfl
  · exact macKey_handleStatusReply id _ _ _ _ d
  · split
    · rfl
    · rfl
  · rfl
  · rw [handleChallengeReply]
    split
    · rfl
    · split
      · rfl
      · rfl
  · rfl
  · rfl

/-- The presence globals and the challenge hold the same `_mac_key`. -/
theorem macKey_keyChange {s : ReportState}
    (h : s.1.macKey = s.2.1.macKey.map List.Vector.toList) (i : WifiIn) :
    (keyChange i s.1).macKey =
      ((wifiLink m hse api).step s.2 i).1.1.macKey.map List.Vector.toList := by
  rcases i with (⟨id, ev⟩ | ⟨keyId, cipherKey⟩ | macKey | keyId) | i
  · exact h.trans (congrArg _ (macKey_challengeStep id s.2.1 ev).symm)
  · exact h
  · rfl
  · exact h
  · exact h

/-! ## The invariant -/

theorem reports_append (t out : List ReportOut) :
    reports (t ++ out) = reports t ++ reports out :=
  List.filterMap_append

theorem credits_append (t out : List ReportOut) :
    credits (t ++ out) = credits t ++ credits out :=
  List.filterMap_append

/-- A set flag rests on a report that was sent at most `delay` before the time stamp,
and credits do not outnumber reports. -/
structure ReportBacked (delay : ℚ) (t : List ReportOut) (s : ReportState) : Prop where
  key : s.1.macKey = s.2.1.macKey.map List.Vector.toList
  recent : s.1.macKeyVerified = true →
    ReportedSince (s.1.lastValidFrameTime - delay) t s
  once : CreditedOnce t

theorem ReportedSince.append {since : ℚ} {s' : ReportState}
    (h : ReportedSince since t s) (hkey : s'.2.1.macKey = s.2.1.macKey)
    (out : List ReportOut) : ReportedSince since (t ++ out) s' := by
  obtain ⟨macKey, ev, time, hmac, htime, hmem⟩ := h
  refine ⟨macKey, ev, time, hkey.trans hmac, htime, ?_⟩
  rw [reports_append]
  exact List.mem_append_left _ hmem

/-- More reports and no more credits. -/
theorem CreditedOnce.append (h : CreditedOnce t) (hout : credits out = []) :
    CreditedOnce (t ++ out) := by
  intro x
  rw [credits_append, hout, List.append_nil, reports_append, List.map_append,
    List.count_append]
  exact (h x).trans (Nat.le_add_right _ _)

/-- One credit for a report that had been credited less often than sent. -/
theorem CreditedOnce.credit (h : CreditedOnce t) {x : List UInt8 × List UInt8}
    (hx : (credits t).count x < ((reports t).map Prod.snd).count x)
    {o : PresenceOut} (ho : o.credit = some x) : CreditedOnce (t ++ [.inl o]) := by
  have hcredits : credits [.inl o] = [x] := by
    simp only [credits, List.filterMap_cons, ho, List.filterMap_nil]
  intro y
  rw [credits_append, hcredits, List.count_append, reports_append, List.map_append,
    List.count_append]
  by_cases hy : y = x
  · rw [hy, List.count_singleton_self]
    exact hx.trans_le (Nat.le_add_right _ _)
  · rw [List.count_eq_zero_of_not_mem fun hmem => hy (List.mem_singleton.mp hmem)]
    exact (h y).trans (Nat.le_add_right _ _)

/-- A step of the monitor or of a port handler. -/
theorem ReportBacked.frame (h : ReportBacked delay t s) {p : Presence}
    (hkey : p.macKey = s.1.macKey)
    (hlast : p.lastValidFrameTime = s.1.lastValidFrameTime)
    (hverified : p.macKeyVerified = true → s.1.macKeyVerified = true) :
    ReportBacked delay (t ++ []) (p, s.2) := by
  rw [List.append_nil]
  refine ⟨hkey.trans h.key, ?_, h.once⟩
  intro hv
  have hrecent := h.recent (hverified hv)
  rw [← hlast] at hrecent
  exact hrecent

theorem ReportBacked.pi4Frame (h : ReportBacked delay t s) (body sig : List UInt8)
    (hrules : ReportRules hmacSha256 t s (now, .pi4Frame body sig))
    (hfirst : FirstDelivery hmacSha256 jsonLoads delay t s (now, .pi4Frame body sig)) :
    ReportBacked delay
      (t ++ [.inl (handlePi4Frame hmacSha256 jsonLoads now body sig s.1).2])
      ((handlePi4Frame hmacSha256 jsonLoads now body sig s.1).1, s.2) := by
  rcases handlePi4Frame_effect body sig s.1 with
    ⟨hp, hcredit⟩ | ⟨key, hauth, hjson, hkey, hlast, hcredit⟩
  · rw [hp]
    refine ⟨h.key, fun hv => (h.recent hv).append rfl _, h.once.append ?_⟩
    simp only [credits, List.filterMap_cons, hcredit, List.filterMap_nil]
  · obtain ⟨⟨ev, rfl⟩, ⟨time, htime, hmem⟩, hlt⟩ :=
      hfirst key hauth hjson (hrules key hauth)
    have hloaded : s.1.macKey = some key :=
      (Option.mem_filter_iff.mp (Option.mem_filter_iff.mp hauth).1).1
    obtain ⟨macKey, hmac, rfl⟩ := Option.map_eq_some_iff.mp (h.key.symm.trans hloaded)
    refine ⟨hkey.trans h.key, fun _ => ?_, h.once.credit hlt hcredit⟩
    have hsince : ReportedSince (now - delay) t s :=
      ⟨macKey, ev, time, hmac, htime, hmem⟩
    rw [← hlast] at hsince
    exact hsince.append rfl _

/-- No output of the other programs is a credit. -/
theorem credits_link (out : List WifiOut) :
    credits (out.map fun o => .inr (now, o)) = [] := by
  rw [credits, List.filterMap_map]
  exact List.filterMap_eq_nil_iff.mpr fun _ _ => rfl

theorem ReportBacked.link (h : ReportBacked delay t s) (i : WifiIn) :
    ReportBacked delay
      (t ++ (((wifiLink m hse api).step s.2 i).2.map fun o => .inr (now, o)))
      (keyChange i s.1, ((wifiLink m hse api).step s.2 i).1) := by
  have hkey := macKey_keyChange hse api h.key i (m := m)
  refine ⟨hkey, ?_, h.once.append (credits_link _)⟩
  rcases i with (⟨id, ev⟩ | ⟨keyId, cipherKey⟩ | macKey | keyId) | i
  · exact fun hv => (h.recent hv).append (macKey_challengeStep id s.2.1 ev) _
  · exact fun hv => (h.recent hv).append rfl _
  · nofun
  · exact fun hv => (h.recent hv).append rfl _
  · exact fun hv => (h.recent hv).append rfl _

theorem ReportBacked.step (h : ReportBacked delay t s) (e : ℚ × ReportEvent)
    (hrules : ReportRules hmacSha256 t s e)
    (hfirst : FirstDelivery hmacSha256 jsonLoads delay t s e) :
    ReportBacked delay
      (t ++ ((reportLink m hse api hmacSha256 jsonLoads).step s e).2)
      ((reportLink m hse api hmacSha256 jsonLoads).step s e).1 := by
  obtain ⟨now, ev⟩ := e
  cases ev with
  | pi4Frame body sig => exact h.pi4Frame body sig hrules hfirst
  | setRx2Port port => exact h.frame rfl rfl id
  | health =>
      simp only [reportLink]
      rcases pi4HealthMonitor_cases now s.1 with hkept | hcleared
      · rw [hkept]
        exact h.frame rfl rfl id
      · rw [hcleared]
        exact h.frame rfl rfl fun hset => absurd hset Bool.false_ne_true
  | link i => exact h.link hse api i

end

/-- The rules, and the condition that keeps the reports a proof of presence. -/
def FreshReports (delay : ℚ) (t : List ReportOut) (s : ReportState)
    (e : ℚ × ReportEvent) : Prop :=
  ReportRules hmacSha256 t s e ∧ FirstDelivery hmacSha256 jsonLoads delay t s e

/-- In a run whose credited requests are first deliveries, an iteration that leaves the
flag set comes at most the window and the delay after a report, and no report is
credited twice. -/
theorem report_proves_presence (delay : ℚ) (w : WifiState) {t : List ReportOut}
    {s : ReportState}
    (h : (reportLink m hse api hmacSha256 jsonLoads).Reach
      (FreshReports hmacSha256 jsonLoads delay) (reportStart w) t s) :
    CreditedOnce t ∧ ∀ now, ReportRules hmacSha256 t s (now, .health) →
      ((reportLink m hse api hmacSha256 jsonLoads).step s
        (now, .health)).1.1.macKeyVerified = true →
        ReportedSince (now - livenessWindowS - delay) t s := by
  have hbacked : ReportBacked delay t s := by
    refine h.invariant ?_ fun t s e hpast hok => hpast.step hse api e hok.1 hok.2
    exact ⟨rfl, nofun, fun x => Nat.le_refl _⟩
  refine ⟨hbacked.once, ?_⟩
  intro now hpeer hflag
  have hflag : ((presence hmacSha256 jsonLoads).step s.1
      (now, .health)).1.macKeyVerified = true := hflag
  obtain ⟨hv, hfresh⟩ := macKeyVerified_health_iff.mp hflag
  obtain ⟨macKey, ev, time, hmac, htime, hmem⟩ := hbacked.recent hv
  refine ⟨macKey, ev, time, hmac, ?_, hmem⟩
  have hle : now - s.1.lastValidFrameTime ≤ livenessWindowS := by
    by_contra hold
    exact hfresh ⟨hpeer, not_le.mp hold⟩
  linarith

/-! ## A report that comes again -/

/-- The system with readable primitives; the tag is the key. -/
def openReports : Machine ReportState (ℚ × ReportEvent) ReportOut :=
  reportLink .transparent .idle (SstApi.reference .transparent)
    (fun _ _ => sharedKey.macKey) fun _ => .dict none

abbrev openReportRules : List ReportOut → ReportState → ℚ × ReportEvent → Prop :=
  ReportRules fun _ _ => sharedKey.macKey

def firstEvent : ReporterEvent :=
  ⟨hexString sharedKey.keyId.toList, ascii "hello", [], 1, 1, 0⟩

/-- The request with the report, with its tag. -/
def reportRequest : ReportEvent :=
  .pi4Frame (frameReportJson firstEvent) (hexString sharedKey.macKey.toList)

/-- One report is sent and arrives. -/
def deliveredRun : List (ℚ × ReportEvent) :=
  [(1, .setRx2Port (ascii "192.168.0.4:8421")),
    (100, .link (.inr (.inr (.frameReport firstEvent)))),
    (100, reportRequest)]

/-- The request comes again, much later. -/
def resentRun : List (ℚ × ReportEvent) :=
  deliveredRun ++ [(1000, reportRequest)]

/-- By the rules, a single report is credited twice and keeps the flag set 900 seconds
after it was sent. -/
theorem resent_report_credited :
    let t := openReports.trace (reportStart wifiStart) resentRun
    let s := openReports.run (reportStart wifiStart) resentRun
    openReports.Reach openReportRules (reportStart wifiStart) t s ∧
      openReportRules t s (1000, .health) ∧
      (openReports.step s (1000, .health)).1.1.macKeyVerified = true ∧
      ¬ ReportedSince (1000 - livenessWindowS - 60) t s ∧ ¬ CreditedOnce t := by
  refine ⟨?_, by decide +kernel, by decide +kernel, ?_, ?_⟩
  · apply Machine.reach_run
    decide +kernel
  · rintro ⟨macKey, ev, time, -, htime, hmem⟩
    have hold : ∀ x ∈ reports (openReports.trace (reportStart wifiStart) resentRun),
        x.1 < 1000 - livenessWindowS - 60 := by
      decide +kernel
    exact absurd htime (not_le.mpr (hold _ hmem))
  · intro honce
    have hle := honce (sharedKey.macKey.toList, frameReportJson firstEvent)
    revert hle
    decide +kernel

theorem reach_deliveredRun (delay : ℚ) (hdelay : 0 ≤ delay) :
    openReports.Reach (FreshReports (fun _ _ => sharedKey.macKey) (fun _ => .dict none)
        delay) (reportStart wifiStart)
      (openReports.trace (reportStart wifiStart) deliveredRun)
      (openReports.run (reportStart wifiStart) deliveredRun) := by
  apply Machine.reach_run
  refine ⟨⟨trivial, trivial⟩, ⟨trivial, trivial⟩, ⟨by decide +kernel, ?_⟩, trivial⟩
  rintro key hkey - -
  have hauth : (openReports.run (reportStart wifiStart)
      (deliveredRun.take 2)).1.authenticates (fun _ _ => sharedKey.macKey)
        (frameReportJson firstEvent) (hexString sharedKey.macKey.toList) =
      some sharedKey.macKey.toList := by
    decide +kernel
  obtain rfl := Option.some.inj (hauth.symm.trans hkey)
  refine ⟨⟨firstEvent, rfl⟩, ⟨100, ?_, by decide +kernel⟩, by decide +kernel⟩
  linarith

/-- Right after its delivery the report proves presence. -/
theorem report_proves_presence_delivered :
    ReportedSince (100 - livenessWindowS - 2)
      (openReports.trace (reportStart wifiStart) deliveredRun)
      (openReports.run (reportStart wifiStart) deliveredRun) :=
  (report_proves_presence .transparent .idle (SstApi.reference .transparent)
    (fun _ _ => sharedKey.macKey) (fun _ => .dict none) 2 wifiStart
    (reach_deliveredRun 2 (by decide +kernel))).2 100 (by decide +kernel)
    (by decide +kernel)

end LifiAuth
