import LifiAuth.Wifi.Presence

/-!
# The handler of frame reports

What a `/pi4_frame` request should do once a key is loaded: take the frame, or refuse the
request and leave everything as it was.  The handler refuses as it should, and takes no
frame at all.
-/

namespace LifiAuth

variable (hmacSha256 : List UInt8 → List UInt8 → Bytes 32)
  (jsonLoads : List UInt8 → LoadedJson)

/-- `X-SST-HMAC` is right under `key`. -/
def RightTag (key body sig : List UInt8) : Prop :=
  hexString (hmacSha256 key body).toList = lower sig

/-- The frame proves presence and goes to the browsers. -/
structure FrameTaken (body : List UInt8) (keyId : Option (List UInt8)) (p : Presence)
    (r : Presence × PresenceOut) : Prop where
  status : r.2.result.status = 204
  verified : r.1.macKeyVerified = true
  keyId : r.1.macKeyId = keyId
  rxSource : r.1.rxSource = p.rxSource.autoSwitched
  event : r.2.frameEvents = [body]

/-- The request is refused and leaves no trace. -/
structure FrameRefused (p : Presence) (r : Presence × PresenceOut) : Prop where
  status : 400 ≤ r.2.result.status ∧ r.2.result.status < 500
  rxSource : r.1.rxSource = p.rxSource
  verified : r.1.macKeyVerified = p.macKeyVerified
  lastValidFrameTime : r.1.lastValidFrameTime = p.lastValidFrameTime

/-- What the handler should do under `key`. -/
structure FrameHandled (key body sig : List UInt8) (p : Presence)
    (r : Presence × PresenceOut) : Prop where
  taken : ∀ keyId, RightTag hmacSha256 key body sig → jsonLoads body = .dict keyId →
    FrameTaken body keyId p r
  refused : (RightTag hmacSha256 key body sig → ∀ keyId, jsonLoads body ≠ .dict keyId) →
    FrameRefused p r

/-- The requests that the handler turns away: a wrong tag in ASCII, or a body that is no
JSON under a right tag or with no tag to check. -/
def TurnedAway (key body sig : List UInt8) : Prop :=
  key ≠ [] ∧ (∀ c ∈ sig, c < 128) ∧ ¬ RightTag hmacSha256 key body sig ∨
    jsonLoads body = .invalid ∧ (key = [] ∨ RightTag hmacSha256 key body sig)

variable {hmacSha256 jsonLoads} {key body sig : List UInt8} {p : Presence} {now : ℚ}

/-! ## The tag -/

theorem forall_mem_lower : (∀ c ∈ lower sig, c < 128) ↔ ∀ c ∈ sig, c < 128 := by
  have hbyte (c : UInt8) : (if 65 ≤ c ∧ c ≤ 90 then c + 32 else c) < 128 ↔ c < 128 := by
    split
    · next hletter =>
        simp only [UInt8.lt_iff_toNat_lt, UInt8.le_iff_toNat_le, UInt8.toNat_add,
          UInt8.reduceToNat] at hletter ⊢
        omega
    · rfl
  rw [lower, List.forall_mem_map]
  exact forall₂_congr fun c _ => hbyte c

theorem compareDigest_of_ascii (hascii : ∀ c ∈ sig, c < 128)
    (h : ¬ RightTag hmacSha256 key body sig) :
    compareDigest (hexString (hmacSha256 key body).toList) (lower sig) =
      some false := by
  rw [compareDigest, if_pos (forall_mem_lower.mpr hascii)]
  exact congrArg some (decide_eq_false h)

/-- A hexadecimal text is ASCII. -/
theorem compareDigest_of_rightTag (h : RightTag hmacSha256 key body sig) :
    compareDigest (hexString (hmacSha256 key body).toList) (lower sig) =
      some true := by
  have hascii : ∀ c ∈ lower sig, c < 128 := by
    intro c hc
    rw [← h] at hc
    by_contra hbig
    have hdigit := hexValue_of_mem_hexString hc
    simp only [hexValue, UInt8.lt_iff_toNat_lt, UInt8.le_iff_toNat_le,
      UInt8.reduceToNat] at hdigit hbig
    split_ifs at hdigit
    · omega
    · omega
    · omega
    · cases hdigit
  rw [compareDigest, if_pos hascii]
  exact congrArg some (decide_eq_true h)

/-! ## The handler -/

theorem checkingKey_of_macKey (h : p.macKey = some key) (hkey : key ≠ []) :
    p.checkingKey = some key := by
  rw [Presence.checkingKey, h]
  exact Option.filter_eq_some_iff.mpr ⟨rfl, decide_eq_true hkey⟩

theorem checkingKey_of_empty (h : p.macKey = some []) : p.checkingKey = none := by
  rw [Presence.checkingKey, h]
  rfl

theorem not_frameRefused_of_status {p' : Presence} {out : PresenceOut}
    (h : out.result.status = 500) : ¬ FrameRefused p (p', out) := by
  intro hrefused
  have hlt := hrefused.status.2
  rw [h] at hlt
  exact Nat.lt_irrefl 500 hlt

theorem frameRefused_same {out : PresenceOut}
    (h : out.result = .unauthorized ∨ out.result = .badRequest) :
    FrameRefused p (p, out) := by
  refine ⟨?_, rfl, rfl, rfl⟩
  rcases h with h | h
  · rw [h]
    decide
  · rw [h]
    decide

/-- Without a key to check the tag with, only the body counts. -/
theorem frameRefused_of_empty_iff (h : p.macKey = some []) :
    FrameRefused p (handlePi4Frame hmacSha256 jsonLoads now body sig p) ↔
      jsonLoads body = .invalid := by
  simp only [handlePi4Frame, checkingKey_of_empty h]
  cases jsonLoads body with
  | invalid => exact iff_of_true (frameRefused_same (Or.inr rfl)) rfl
  | other => exact iff_of_false (not_frameRefused_of_status rfl) LoadedJson.noConfusion
  | dict keyId => exact iff_of_false (not_frameRefused_of_status rfl) LoadedJson.noConfusion

/-- Under a right tag, too. -/
theorem frameRefused_of_rightTag_iff (h : p.checkingKey = some key)
    (htag : RightTag hmacSha256 key body sig) :
    FrameRefused p (handlePi4Frame hmacSha256 jsonLoads now body sig p) ↔
      jsonLoads body = .invalid := by
  simp only [handlePi4Frame, h, compareDigest_of_rightTag htag]
  cases jsonLoads body with
  | invalid => exact iff_of_true (frameRefused_same (Or.inr rfl)) rfl
  | other => exact iff_of_false (not_frameRefused_of_status rfl) LoadedJson.noConfusion
  | dict keyId => exact iff_of_false (not_frameRefused_of_status rfl) LoadedJson.noConfusion

/-- A wrong tag is compared only if it is ASCII. -/
theorem frameRefused_of_wrongTag_iff (h : p.checkingKey = some key)
    (htag : ¬ RightTag hmacSha256 key body sig) :
    FrameRefused p (handlePi4Frame hmacSha256 jsonLoads now body sig p) ↔
      ∀ c ∈ sig, c < 128 := by
  by_cases hascii : ∀ c ∈ sig, c < 128
  · refine iff_of_true ?_ hascii
    simp only [handlePi4Frame, h, compareDigest_of_ascii hascii htag]
    exact frameRefused_same (Or.inl rfl)
  · refine iff_of_false ?_ hascii
    have hraises : compareDigest (hexString (hmacSha256 key body).toList)
        (lower sig) = none :=
      if_neg (mt forall_mem_lower.mp hascii)
    simp only [handlePi4Frame, h, hraises]
    exact not_frameRefused_of_status rfl

theorem frameRefused_iff (h : p.macKey = some key) :
    FrameRefused p (handlePi4Frame hmacSha256 jsonLoads now body sig p) ↔
      TurnedAway hmacSha256 jsonLoads key body sig := by
  by_cases hkey : key = []
  · rw [hkey] at h
    rw [frameRefused_of_empty_iff h, TurnedAway]
    simp [hkey]
  · have hchecking := checkingKey_of_macKey h hkey
    by_cases htag : RightTag hmacSha256 key body sig
    · rw [frameRefused_of_rightTag_iff hchecking htag, TurnedAway]
      simp [htag]
    · rw [frameRefused_of_wrongTag_iff hchecking htag, TurnedAway]
      simp [htag, hkey]

/-- The handler answers no request with 204. -/
theorem status_ne_204 :
    (handlePi4Frame hmacSha256 jsonLoads now body sig p).2.result.status ≠ 204 := by
  have hraised : (500 : ℕ) ≠ 204 := by decide
  have hrefused : (401 : ℕ) ≠ 204 ∧ (400 : ℕ) ≠ 204 := by decide
  simp only [handlePi4Frame, feedFrame]
  split
  · split
    · exact hraised
    · exact hrefused.1
    · split
      · exact hrefused.2
      · exact hraised
      · exact hraised
  · split
    · exact hrefused.2
    · exact hraised
    · exact hraised

/-- The handler does what it should exactly with the requests it turns away. -/
theorem pi4Frame_handled_iff (now : ℚ) (key body sig : List UInt8) (p : Presence) :
    let p : Presence := { p with macKey := some key }
    FrameHandled hmacSha256 jsonLoads key body sig p
        (handlePi4Frame hmacSha256 jsonLoads now body sig p) ↔
      TurnedAway hmacSha256 jsonLoads key body sig := by
  intro p
  have hrefused : FrameRefused p (handlePi4Frame hmacSha256 jsonLoads now body sig p) ↔
      TurnedAway hmacSha256 jsonLoads key body sig := frameRefused_iff rfl
  rw [← hrefused]
  constructor
  · intro h
    apply h.refused
    intro htag keyId hdict
    exact absurd (h.taken keyId htag hdict).status status_ne_204
  · intro h
    refine ⟨?_, fun _ => h⟩
    intro keyId htag hdict
    rcases hrefused.mp h with ⟨-, -, hwrong⟩ | ⟨hinvalid, -⟩
    · exact absurd htag hwrong
    · rw [hdict] at hinvalid
      cases hinvalid

/-- Right after startup, the first frame sets the flag and breaks the handler. -/
theorem pi4Frame_breaks :
    let tag := hexString (Bytes.zero 32).toList
    let r := handlePi4Frame (fun _ _ => Bytes.zero 32) (fun _ => .dict none) 100
      (ascii "\x7b\x7d") tag (.start (some [1]))
    r.1.macKeyVerified = true ∧ r.2.result.status = 500 ∧
      ¬ FrameHandled (fun _ _ => Bytes.zero 32) (fun _ => .dict none) [1]
        (ascii "\x7b\x7d") tag (.start (some [1])) r := by
  refine ⟨by decide +kernel, by decide +kernel, ?_⟩
  intro h
  have htag : RightTag (fun _ _ => Bytes.zero 32) [1] (ascii "\x7b\x7d")
      (hexString (Bytes.zero 32).toList) := by
    rw [RightTag]
    decide
  exact absurd (h.taken none htag rfl).status status_ne_204

end LifiAuth
