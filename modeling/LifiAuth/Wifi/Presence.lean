import LifiAuth.Support.Machine
import LifiAuth.Support.Text
import Mathlib.Algebra.Order.Ring.Rat
import Mathlib.Data.List.Induction
import Mathlib.Tactic.Linarith

/-!
# Presence at the dashboard

`app.py` takes an authenticated `/pi4_frame` as proof that the light link is up and
lets the proof decay in `pi4_health_monitor`.  The decay only looks at a WiFi peer, so
the proof outlives its window exactly where an iteration finds another `RX2_PORT`, or
where a body that is no JSON object has moved the time stamp on.  The handler never
gets as far as its answer 204.
-/

namespace LifiAuth

open Support

/-- What `json.loads` makes of a body; `keyId` is what `get('key_id')` finds. -/
inductive LoadedJson where
  | invalid
  | dict (keyId : Option (List UInt8))
  | other
  deriving DecidableEq

variable (hmacSha256 : List UInt8 → List UInt8 → Bytes 32)
  (jsonLoads : List UInt8 → LoadedJson)

/-- `LIVENESS_WINDOW_S`. -/
def livenessWindowS : ℚ := 15

/-- `rx_source`. -/
inductive RxSource where
  | uart
  | wifi
  | both
  | none
  deriving DecidableEq

/-- The globals that `/pi4_frame` and the decay use. -/
structure Presence where
  macKey : Option (List UInt8)
  macKeyVerified : Bool
  macKeyId : Option (List UInt8)
  lastValidFrameTime : ℚ
  rx2Port : List UInt8
  rxSource : RxSource

/-- The globals after startup. -/
def Presence.start (macKey : Option (List UInt8)) : Presence where
  macKey := macKey
  macKeyVerified := false
  macKeyId := none
  lastValidFrameTime := 0
  rx2Port := []
  rxSource := .uart

/-- How `handle_pi4_frame` ends: with an answer, or with an exception. -/
inductive PostResult where
  | unauthorized
  | badRequest
  | typeError
  | attributeError
  | unboundLocalError
  | noContent
  deriving DecidableEq

/-- The HTTP status; Flask answers 500 for an exception. -/
def PostResult.status : PostResult → ℕ
  | unauthorized => 401
  | badRequest => 400
  | typeError | attributeError | unboundLocalError => 500
  | noContent => 204

/-- A `/pi4_frame` request has been answered; `authenticatedBy` is the key under which
its tag was checked and right, and `frameEvents` are the bodies that `rx_frame_event`s
carried to the browsers. -/
structure PresenceOut where
  time : ℚ
  body : List UInt8
  authenticatedBy : Option (List UInt8)
  result : PostResult
  frameEvents : List (List UInt8)
  deriving DecidableEq

/-! ## Handlers -/

/-- `_set_mac_key_verified`. -/
def Presence.setMacKeyVerified (v : Bool) (keyId : Option (List UInt8))
    (p : Presence) : Presence :=
  { p with
    macKeyVerified := v
    macKeyId := if v then keyId else none }

/-- `if _mac_key`: an empty key counts as none. -/
def Presence.checkingKey (p : Presence) : Option (List UInt8) :=
  p.macKey.filter (· ≠ [])

/-- `lower` of a header. -/
def lower (s : List UInt8) : List UInt8 :=
  s.map fun c => if 65 ≤ c ∧ c ≤ 90 then c + 32 else c

/-- `hmac.compare_digest`, which raises an exception where a string is not ASCII. -/
def compareDigest (expected sig : List UInt8) : Option Bool :=
  if ∀ c ∈ sig, c < 128 then some (expected = sig) else none

/-- The source that the first frame switches to. -/
def RxSource.autoSwitched : RxSource → RxSource
  | uart => both
  | none => wifi
  | src => src

/-- `handle_pi4_frame` from `with rx_source_lock` on: the end, and the bodies emitted.
`rxSource` is its local name `rx_source`. -/
def feedFrame (rxSource : Option RxSource) (body : List UInt8) :
    PostResult × List (List UInt8) :=
  match rxSource with
  | none => (.unboundLocalError, [])
  | some src =>
      if src.autoSwitched = .wifi ∨ src.autoSwitched = .both then (.noContent, [body])
      else (.noContent, [])

/-- `handle_pi4_frame`; a body that is no object breaks it after the time stamp. -/
def handlePi4Frame (now : ℚ) (body sig : List UInt8) (p : Presence) :
    Presence × PresenceOut :=
  -- `rx_source` is assigned in the handler, which does not declare it global: there it
  -- is a local name, and without a value when it is read.
  let (result, frameEvents) := feedFrame none body
  match p.checkingKey with
  | some key =>
      match compareDigest (hexString (hmacSha256 key body).toList) (lower sig) with
      | none => (p, ⟨now, body, none, .typeError, []⟩)
      | some false => (p, ⟨now, body, none, .unauthorized, []⟩)
      | some true =>
          match jsonLoads body with
          | .invalid => (p, ⟨now, body, some key, .badRequest, []⟩)
          | .other =>
              ({ p with lastValidFrameTime := now },
                ⟨now, body, some key, .attributeError, []⟩)
          | .dict keyId =>
              (({ p with lastValidFrameTime := now } : Presence).setMacKeyVerified true
                keyId, ⟨now, body, some key, result, frameEvents⟩)
  | none =>
      match jsonLoads body with
      | .invalid => (p, ⟨now, body, none, .badRequest, []⟩)
      | .other | .dict _ => (p, ⟨now, body, none, result, frameEvents⟩)

/-- `_is_wifi_peer`. -/
def isWifiPeer (port : List UInt8) : Bool :=
  !port.isEmpty && !(ascii "/dev/").isPrefixOf port

/-- One iteration of `pi4_health_monitor`. -/
def pi4HealthMonitor (now : ℚ) (p : Presence) : Presence :=
  if isWifiPeer p.rx2Port then
    if p.macKeyVerified ∧ livenessWindowS < now - p.lastValidFrameTime then
      p.setMacKeyVerified false none
    else p
  else p

/-- `reload_key` and the end of a provisioning, with what `_load_mac_key` returns. -/
def reloadKey (macKey : Option (List UInt8)) (p : Presence) : Presence :=
  ({ p with macKey := macKey } : Presence).setMacKeyVerified false none

inductive PresenceEvent where
  | pi4Frame (body sig : List UInt8)
  | reload (macKey : Option (List UInt8))
  /-- The handlers that connect and disconnect ports set `RX2_PORT`. -/
  | setRx2Port (port : List UInt8)
  | health

/-- The dashboard; each event comes with its time. -/
def presence : Machine Presence (ℚ × PresenceEvent) PresenceOut where
  step p e :=
    match e.2 with
    | .pi4Frame body sig =>
        let (p, out) := handlePi4Frame hmacSha256 jsonLoads e.1 body sig p
        (p, [out])
    | .reload macKey => (reloadKey macKey p, [])
    | .setRx2Port port => ({ p with rx2Port := port }, [])
    | .health => (pi4HealthMonitor e.1 p, [])

/-! ## What the handlers can do -/

theorem compareDigest_eq_true {expected sig : List UInt8}
    (h : compareDigest expected sig = some true) : expected = sig := by
  rw [compareDigest] at h
  split at h
  · exact of_decide_eq_true (Option.some.inj h)
  · cases h

/-- A request changes nothing, or its tag is right and the time stamp moves on. -/
theorem handlePi4Frame_cases (now : ℚ) (body sig : List UInt8) (p : Presence) :
    (∃ key result events, handlePi4Frame hmacSha256 jsonLoads now body sig p =
        (p, ⟨now, body, key, result, events⟩) ∧ (key = none ∨ result = .badRequest)) ∨
      ∃ key ∈ p.checkingKey, hexString (hmacSha256 key body).toList = lower sig ∧
        jsonLoads body ≠ .invalid ∧
        ∃ p' result, handlePi4Frame hmacSha256 jsonLoads now body sig p =
            (p', ⟨now, body, some key, result, []⟩) ∧
          (result = .attributeError ∨ result = .unboundLocalError) ∧
          p'.macKey = p.macKey ∧ p'.lastValidFrameTime = now := by
  simp only [handlePi4Frame, feedFrame]
  cases p.checkingKey with
  | none =>
      left
      cases jsonLoads body with
      | invalid => exact ⟨none, _, _, rfl, Or.inl rfl⟩
      | other => exact ⟨none, _, _, rfl, Or.inl rfl⟩
      | dict keyId => exact ⟨none, _, _, rfl, Or.inl rfl⟩
  | some key =>
      simp only
      cases hsig : compareDigest (hexString (hmacSha256 key body).toList)
        (lower sig) with
      | none => exact Or.inl ⟨none, _, _, rfl, Or.inl rfl⟩
      | some right =>
          cases right with
          | false => exact Or.inl ⟨none, _, _, rfl, Or.inl rfl⟩
          | true =>
              have heq := compareDigest_eq_true hsig
              cases jsonLoads body with
              | invalid => exact Or.inl ⟨some key, _, _, rfl, Or.inr rfl⟩
              | other =>
                  exact Or.inr ⟨key, rfl, heq, LoadedJson.noConfusion, _, _, rfl,
                    Or.inl rfl, rfl, rfl⟩
              | dict keyId =>
                  exact Or.inr ⟨key, rfl, heq, LoadedJson.noConfusion, _, _, rfl,
                    Or.inr rfl, rfl, rfl⟩

theorem pi4HealthMonitor_cases (now : ℚ) (p : Presence) :
    pi4HealthMonitor now p = p ∨
      pi4HealthMonitor now p = p.setMacKeyVerified false none := by
  rw [pi4HealthMonitor]
  split
  · split
    · exact Or.inr rfl
    · exact Or.inl rfl
  · exact Or.inl rfl

/-! ## Credited posts -/

/-- The times of the authenticated posts that were answered with `result`. -/
def postTimes (result : PostResult) (t : List PresenceOut) : List ℚ :=
  (t.filter fun o => o.authenticatedBy.isSome && o.result == result).map PresenceOut.time

/-- An authenticated frame was accepted as proof in the window that ends at `now`; the
handler has set the flag when it reads `rx_source`. -/
def AcceptedWithin (t : List PresenceOut) (now : ℚ) : Prop :=
  ∃ time ∈ postTimes .unboundLocalError t, now - livenessWindowS ≤ time ∧ time ≤ now

instance (t : List PresenceOut) (now : ℚ) : Decidable (AcceptedWithin t now) :=
  inferInstanceAs (Decidable (∃ time ∈ postTimes .unboundLocalError t, _ ∧ _))

/-- The times of the posts that moved the time stamp. -/
def creditTimes (t : List PresenceOut) : List ℚ :=
  postTimes .unboundLocalError t ++ postTimes .attributeError t

theorem mem_creditTimes_append (t out : List PresenceOut) (time : ℚ) :
    time ∈ creditTimes (t ++ out) ↔ time ∈ creditTimes t ∨ time ∈ creditTimes out := by
  simp only [creditTimes, postTimes, List.filter_append, List.map_append,
    List.mem_append]
  tauto

/-- The time stamp is the last credit, and the flag rests on a credit. -/
structure Credited (t : List PresenceOut) (p : Presence) : Prop where
  verified : p.macKeyVerified = true → p.lastValidFrameTime ∈ creditTimes t
  last : ∀ time ∈ creditTimes t, time ≤ p.lastValidFrameTime

section

variable {hmacSha256 jsonLoads} {t out : List PresenceOut} {p p' : Presence} {now : ℚ}

/-- A step without a credit. -/
theorem Credited.frame (h : Credited t p) (hout : creditTimes out = [])
    (hlast : p'.lastValidFrameTime = p.lastValidFrameTime)
    (hverified : p'.macKeyVerified = true → p.macKeyVerified = true) :
    Credited (t ++ out) p' := by
  have hmem (time : ℚ) : time ∈ creditTimes (t ++ out) ↔ time ∈ creditTimes t := by
    rw [mem_creditTimes_append, hout]
    simp
  refine ⟨?_, ?_⟩
  · intro hv
    rw [hlast, hmem]
    exact h.verified (hverified hv)
  · intro time htime
    rw [hlast]
    exact h.last time ((hmem time).mp htime)

/-- A step with a credit that is no earlier than those before. -/
theorem Credited.credit (hnow : ∀ time ∈ creditTimes t, time ≤ now)
    (hout : creditTimes out = [now]) (hlast : p'.lastValidFrameTime = now) :
    Credited (t ++ out) p' := by
  have hmem (time : ℚ) :
      time ∈ creditTimes (t ++ out) ↔ time ∈ creditTimes t ∨ time = now := by
    rw [mem_creditTimes_append, hout, List.mem_singleton]
  refine ⟨?_, ?_⟩
  · intro _
    rw [hlast]
    exact (hmem now).mpr (Or.inr rfl)
  · intro time htime
    rw [hlast]
    rcases (hmem time).mp htime with htime | rfl
    · exact hnow time htime
    · exact le_rfl

theorem Credited.handlePi4Frame (h : Credited t p)
    (hnow : ∀ time ∈ creditTimes t, time ≤ now) (body sig : List UInt8) :
    Credited (t ++ [(handlePi4Frame hmacSha256 jsonLoads now body sig p).2])
      (handlePi4Frame hmacSha256 jsonLoads now body sig p).1 := by
  rcases handlePi4Frame_cases hmacSha256 jsonLoads now body sig p with
    ⟨keyId, result, events, hpost, hplain⟩ | ⟨key, -, -, -, p', result, hpost, hcredit, -, hlast⟩
  · rw [hpost]
    refine h.frame ?_ rfl id
    rcases hplain with rfl | rfl
    · rfl
    · cases keyId with
      | none => rfl
      | some key => rfl
  · rw [hpost]
    refine .credit hnow ?_ hlast
    rcases hcredit with rfl | rfl
    · rfl
    · rfl

theorem Credited.step (h : Credited t p)
    (hnow : ∀ time ∈ creditTimes t, time ≤ now) (ev : PresenceEvent) :
    Credited (t ++ ((presence hmacSha256 jsonLoads).step p (now, ev)).2)
      ((presence hmacSha256 jsonLoads).step p (now, ev)).1 := by
  cases ev with
  | pi4Frame body sig => exact h.handlePi4Frame hnow body sig
  | reload macKey => exact h.frame rfl rfl nofun
  | setRx2Port port => exact h.frame rfl rfl id
  | health =>
      simp only [presence]
      rcases pi4HealthMonitor_cases now p with hkept | hcleared
      · rw [hkept]
        exact h.frame rfl rfl id
      · rw [hcleared]
        exact h.frame rfl rfl fun hset => absurd hset Bool.false_ne_true

/-- A post is answered at the time of its event. -/
theorem time_of_mem_step {e : ℚ × PresenceEvent} {o : PresenceOut}
    (ho : o ∈ ((presence hmacSha256 jsonLoads).step p e).2) : o.time = e.1 := by
  obtain ⟨now, ev⟩ := e
  cases ev with
  | pi4Frame body sig =>
      obtain rfl : o = (handlePi4Frame hmacSha256 jsonLoads now body sig p).2 :=
        List.mem_singleton.mp ho
      rcases handlePi4Frame_cases hmacSha256 jsonLoads now body sig p with
        ⟨keyId, result, events, hpost, -⟩ | ⟨key, -, -, -, p', result, hpost, -⟩
      · rw [hpost]
      · rw [hpost]
  | reload macKey => cases ho
  | setRx2Port port => cases ho
  | health => cases ho

/-- An iteration keeps the flag unless it sees a WiFi peer and the stamp is old. -/
theorem macKeyVerified_health_iff :
    ((presence hmacSha256 jsonLoads).step p (now, .health)).1.macKeyVerified = true ↔
      p.macKeyVerified = true ∧ ¬ (isWifiPeer p.rx2Port = true ∧
        livenessWindowS < now - p.lastValidFrameTime) := by
  simp only [presence, pi4HealthMonitor]
  split
  · next hpeer =>
      split
      · next hstale => simp [Presence.setMacKeyVerified, hstale.2, hpeer]
      · next hfresh =>
          rw [not_and] at hfresh
          exact ⟨fun hv => ⟨hv, fun h => hfresh hv h.2⟩, And.left⟩
  · next hpeer => exact ⟨fun hv => ⟨hv, fun h => hpeer h.1⟩, And.left⟩

variable (hmacSha256 jsonLoads) in
/-- One iteration, from a state whose stamp is the last credit. -/
theorem Credited.health_iff (h : Credited t p)
    (hnow : ∀ time ∈ creditTimes t, time ≤ now) :
    (((presence hmacSha256 jsonLoads).step p (now, .health)).1.macKeyVerified = true →
        AcceptedWithin t now) ↔
      (p.macKeyVerified = true → ¬ AcceptedWithin t now →
        isWifiPeer p.rx2Port = true ∧
          ∀ time ∈ postTimes .attributeError t, time < now - livenessWindowS) := by
  rw [macKeyVerified_health_iff]
  constructor
  · intro hkept hv hnone
    have hdecayed : isWifiPeer p.rx2Port = true ∧
        livenessWindowS < now - p.lastValidFrameTime := by
      by_contra hstays
      exact hnone (hkept ⟨hv, hstays⟩)
    refine ⟨hdecayed.1, ?_⟩
    intro time htime
    have hle := h.last time (List.mem_append_right _ htime)
    have := hdecayed.2
    linarith
  · rintro hstale ⟨hv, hstays⟩
    by_contra hnone
    obtain ⟨hpeer, hbroken⟩ := hstale hv hnone
    have hrecent : now - livenessWindowS ≤ p.lastValidFrameTime := by
      by_contra hold
      exact hstays ⟨hpeer, by linarith⟩
    rcases List.mem_append.mp (h.verified hv) with haccepted | herror
    · exact hnone ⟨_, haccepted, hrecent, hnow _ (h.verified hv)⟩
    · have := hbroken _ herror
      linarith

end

/-! ## Runs -/

theorem creditTimes_trace_le {es : List (ℚ × PresenceEvent)} {now : ℚ}
    (hes : ∀ e ∈ es, e.1 ≤ now) (p : Presence) :
    ∀ time ∈ creditTimes ((presence hmacSha256 jsonLoads).trace p es), time ≤ now := by
  intro time htime
  obtain ⟨o, ho, rfl⟩ : ∃ o ∈ (presence hmacSha256 jsonLoads).trace p es,
      o.time = time := by
    simp only [creditTimes, postTimes, List.mem_append, List.mem_map,
      List.mem_filter] at htime
    rcases htime with ⟨o, ho, h⟩ | ⟨o, ho, h⟩
    · exact ⟨o, ho.1, h⟩
    · exact ⟨o, ho.1, h⟩
  obtain ⟨before, e, after, rfl, hmem⟩ := Machine.mem_trace_iff.mp ho
  rw [time_of_mem_step hmem]
  exact hes e (by simp)

/-- At non-decreasing times the stamp is the last credit all along. -/
theorem credited_run (macKey : Option (List UInt8)) {es : List (ℚ × PresenceEvent)}
    (hes : (es.map Prod.fst).Pairwise (· ≤ ·)) :
    Credited ((presence hmacSha256 jsonLoads).trace (.start macKey) es)
      ((presence hmacSha256 jsonLoads).run (.start macKey) es) := by
  induction es using List.reverseRecOn with
  | nil => exact ⟨nofun, nofun⟩
  | append_singleton es e ih =>
      rw [List.map_append, List.pairwise_append] at hes
      obtain ⟨hpast, -, hlast⟩ := hes
      have hle : ∀ e' ∈ es, e'.1 ≤ e.1 := by
        intro e' he'
        exact hlast e'.1 (List.mem_map_of_mem he') e.1 (by simp)
      rw [Machine.trace_append, Machine.run_append, Machine.trace_cons,
        Machine.trace_nil, List.append_nil]
      exact (ih hpast).step (creditTimes_trace_le hmacSha256 jsonLoads hle _) e.2

/-- After every iteration of the monitor, a set flag rests on a frame accepted in the
window. -/
def FlagDecays (macKey : Option (List UInt8)) (es : List (ℚ × PresenceEvent)) : Prop :=
  ∀ before now after, es = before ++ (now, .health) :: after →
    ((presence hmacSha256 jsonLoads).run (.start macKey)
        (before ++ [(now, .health)])).macKeyVerified = true →
      AcceptedWithin ((presence hmacSha256 jsonLoads).trace (.start macKey) before) now

/-- Every iteration that finds the flag set, and no frame accepted in the window, sees
a WiFi peer, and no body that is no object moved the time stamp within the window. -/
def StaleSeesPeer (macKey : Option (List UInt8)) (es : List (ℚ × PresenceEvent)) :
    Prop :=
  ∀ before now after, es = before ++ (now, .health) :: after →
    let p := (presence hmacSha256 jsonLoads).run (.start macKey) before
    let t := (presence hmacSha256 jsonLoads).trace (.start macKey) before
    p.macKeyVerified = true → ¬ AcceptedWithin t now →
      isWifiPeer p.rx2Port = true ∧
        ∀ time ∈ postTimes .attributeError t, time < now - livenessWindowS

/-- At non-decreasing times the flag decays exactly if the monitor sees a WiFi peer
whenever there is something to decay. -/
theorem presence_decays_iff (macKey : Option (List UInt8))
    {es : List (ℚ × PresenceEvent)} (hes : (es.map Prod.fst).Pairwise (· ≤ ·)) :
    FlagDecays hmacSha256 jsonLoads macKey es ↔
      StaleSeesPeer hmacSha256 jsonLoads macKey es := by
  refine forall_congr' fun before => forall_congr' fun now => forall_congr' fun after =>
    forall_congr' fun hsplit => ?_
  rw [hsplit, List.map_append, List.pairwise_append] at hes
  obtain ⟨hpast, -, hlast⟩ := hes
  have hle : ∀ e ∈ before, e.1 ≤ now := by
    intro e he
    exact hlast e.1 (List.mem_map_of_mem he) now (by simp)
  have hiff := (credited_run hmacSha256 jsonLoads macKey hpast).health_iff
    hmacSha256 jsonLoads (creditTimes_trace_le hmacSha256 jsonLoads hle _)
  rw [Machine.run_append]
  exact hiff

/-- A frame and, much later, an iteration without a peer. -/
def frameThenHealth : List (ℚ × PresenceEvent) :=
  [(100, .pi4Frame (ascii "\x7b\x7d") (hexString (Bytes.zero 32).toList)),
    (200, .health)]

theorem not_flagDecays_frameThenHealth :
    ¬ FlagDecays (fun _ _ => Bytes.zero 32) (fun _ => .dict none) (some [1])
      frameThenHealth := by
  intro h
  have haccepted := h (frameThenHealth.take 1) 200 [] rfl (by decide +kernel)
  revert haccepted
  decide +kernel

/-- The flag is still set 100 seconds after the only frame. -/
theorem flag_outlives_window :
    (frameThenHealth.map Prod.fst).Pairwise (· ≤ ·) ∧
      ¬ FlagDecays (fun _ _ => Bytes.zero 32) (fun _ => .dict none) (some [1])
        frameThenHealth :=
  ⟨by decide +kernel, not_flagDecays_frameThenHealth⟩

/-- With a peer: an iteration soon after the frame, and one much later. -/
def framesWithPeer : List (ℚ × PresenceEvent) :=
  [(90, .setRx2Port (ascii "172.20.10.3")),
    (100, .pi4Frame (ascii "\x7b\x7d") (hexString (Bytes.zero 32).toList)),
    (103, .health), (200, .health)]

theorem staleSeesPeer_framesWithPeer :
    StaleSeesPeer (fun _ _ => Bytes.zero 32) (fun _ => .dict none) (some [1])
      framesWithPeer := by
  intro before now after hsplit
  obtain ⟨hlen, hbefore, hhealth⟩ := Machine.position_of_split hsplit
  have hcases : before.length = 0 ∨ before.length = 1 ∨ before.length = 2 ∨
      before.length = 3 := by
    change before.length < 4 at hlen
    omega
  rcases hcases with hk | hk | hk | hk
  all_goals
    rw [hk] at hbefore hhealth
    cases hhealth
  · rw [hbefore]
    intro p t _ hlate
    exact absurd (show AcceptedWithin t 103 by decide +kernel) hlate
  · rw [hbefore]
    exact fun _ _ => ⟨by decide +kernel, by decide +kernel⟩

/-- The flag decays at a peer, and the condition names the iteration that sees none. -/
theorem presence_decays_iff_withPeer :
    FlagDecays (fun _ _ => Bytes.zero 32) (fun _ => .dict none) (some [1]) framesWithPeer ∧
      ¬ StaleSeesPeer (fun _ _ => Bytes.zero 32) (fun _ => .dict none) (some [1])
        frameThenHealth := by
  have htimes : (framesWithPeer.map Prod.fst).Pairwise (· ≤ ·) := by decide +kernel
  have htimes' : (frameThenHealth.map Prod.fst).Pairwise (· ≤ ·) := by decide +kernel
  refine ⟨(presence_decays_iff _ _ (some [1]) htimes).mpr staleSeesPeer_framesWithPeer, ?_⟩
  rw [← presence_decays_iff _ _ (some [1]) htimes']
  exact not_flagDecays_frameThenHealth

end LifiAuth
