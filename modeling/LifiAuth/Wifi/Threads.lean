import LifiAuth.Dash.KeyCoherence
import LifiAuth.Wifi.ChallengeServer
import LifiAuth.Wifi.Dashboard

/-!
# The main loop, the challenge thread and the reporter thread

The three threads take turns in any order; a turn is a critical section on
`g_rep_mutex` with the statements after it.  What leaves the program carries a key
id and an HMAC, which were not always read in the same critical section.
-/

namespace LifiAuth

open Support

variable (m : Mbedtls) (api : SstApi)

/-- The local variables of `challenge_handle` between its two critical sections. -/
structure ChallengeLocals where
  macKeyCopy : Bytes 32
  nonceBytes : Bytes 32
  hmacOut : Bytes 32

/-- Where `reporter_thread` is. -/
inductive ReporterThread where
  | waiting
  /-- It holds a copy of the event. -/
  | copied (ev : ReporterEvent)
  /-- It found `g_rep_key_valid` set. -/
  | posting (ev : ReporterEvent)
  deriving DecidableEq

structure Threads where
  dash : Dash
  challenge : Option ChallengeLocals
  reporter : ReporterThread

inductive ThreadsOut where
  | loop (o : DashOut)
  /-- The response to a challenge. -/
  | answered (nonceBytes hmacOut : Bytes 32) (keyIdStr : List UInt8)
  /-- A frame report, posted with the HMAC of its text. -/
  | framePosted (ev : ReporterEvent) (hmacOut : Bytes 32)
  deriving DecidableEq

/-! ## Turns -/

/-- `challenge_handle` up to the HMAC; `stack` is what its locals held before. -/
def copyMacKey (body : List UInt8) (stack : Bytes 32) (s : Threads) : Threads :=
  match s.challenge, challengeNonceHex (cstr body) with
  | none, some hex =>
      if s.dash.rep.keyValid then
        let nonceBytes := decodeNonce hex stack
        let locals : ChallengeLocals :=
          { macKeyCopy := s.dash.rep.macKey
            nonceBytes := nonceBytes
            hmacOut := (m.sstHmacSha256Ex s.dash.rep.macKey
              nonceBytes.toList).getD stack }
        { s with challenge := some locals }
      else s
  | _, _ => s

/-- The rest of `challenge_handle`: the key id is read under a second lock. -/
def respond (s : Threads) : Threads × List ThreadsOut :=
  match s.challenge with
  | none => (s, [])
  | some l =>
      ({ s with challenge := none },
        [.answered l.nonceBytes l.hmacOut s.dash.rep.currentKeyIdHex])

/-- The critical section of `reporter_thread`. -/
def copyEvent (s : Threads) : Threads :=
  match s.reporter with
  | .waiting =>
      if s.dash.rep.pending then
        { s with
          dash := { s.dash with rep := { s.dash.rep with pending := false } }
          reporter := .copied s.dash.rep.event }
      else s
  | _ => s

/-- `if (g_rep_key_valid)`, outside the lock. -/
def checkKeyValid (s : Threads) : Threads :=
  match s.reporter with
  | .copied ev =>
      { s with reporter := if s.dash.rep.keyValid then .posting ev else .waiting }
  | _ => s

/-- `reporter_post`: `dashboard_http_post` reads the MAC key outside the lock. -/
def reporterPost (stack : Bytes 32) (s : Threads) : Threads × List ThreadsOut :=
  match s.reporter with
  | .posting ev =>
      ({ s with reporter := .waiting },
        [.framePosted ev ((m.sstHmacSha256Ex s.dash.rep.macKey
          (frameReportJson ev)).getD stack)])
  | _ => (s, [])

inductive ThreadsEvent where
  | loop (env : DashEnv) (ev : DashEvent)
  | request (body : List UInt8) (stack : Bytes 32)
  | respond
  | copyEvent
  | checkKeyValid
  | post (stack : Bytes 32)

/-- One turn; the main loop replaces a key, or signals a frame, in one critical
section of an event. -/
def threadsStep (s : Threads) : ThreadsEvent → Threads × List ThreadsOut
  | .loop env ev =>
      ({ s with dash := (dashStep m api s.dash env ev).1 },
        (dashStep m api s.dash env ev).2.map .loop)
  | .request body stack => (copyMacKey m body stack s, [])
  | .respond => respond s
  | .copyEvent => (copyEvent s, [])
  | .checkKeyValid => (checkKeyValid s, [])
  | .post stack => reporterPost m stack s

def threads : Machine Threads ThreadsEvent ThreadsOut where
  step := threadsStep m api

/-- The threads when the main loop starts. -/
def Threads.start (fdOpen : Bool) (sessionKeys : KeyList)
    (memory : List.Vector (Bytes 12) 64) : Threads where
  dash := Dash.start fdOpen sessionKeys memory
  challenge := none
  reporter := .waiting

/-! ## The challenge thread of `pi4` -/

/-- The program as the dashboard's challenges see it. -/
def Threads.pi4 (s : Threads) : Pi4 where
  dash := s.dash
  answering := s.challenge.map ChallengeLocals.hmacOut

theorem pi4_copyMacKey (body : List UInt8) (stack : Bytes 32) (s : Threads) :
    (copyMacKey m body stack s).pi4 = (challengeBegin m body stack s.pi4).1 := by
  cases hchallenge : s.challenge with
  | some l => simp [copyMacKey, challengeBegin, Threads.pi4, hchallenge]
  | none =>
      cases hhex : challengeNonceHex (cstr body) with
      | none => simp [copyMacKey, challengeBegin, Threads.pi4, hchallenge, hhex]
      | some hex =>
          simp only [copyMacKey, challengeBegin, Threads.pi4, hchallenge, hhex,
            Option.map_none]
          split
          · cases m.sstHmacSha256Ex s.dash.rep.macKey (decodeNonce hex stack).toList with
            | none => rfl
            | some mac => rfl
          · rw [hchallenge]
            rfl

theorem pi4_respond (s : Threads) :
    (respond s).1.pi4 = (challengeEnd s.pi4).1 := by
  cases hchallenge : s.challenge with
  | none => simp [respond, challengeEnd, Threads.pi4, hchallenge]
  | some l => simp [respond, challengeEnd, Threads.pi4, hchallenge]

/-! ## What may not overlap -/

/-- No challenge is being answered and no frame is being reported. -/
def Threads.Idle (s : Threads) : Prop :=
  s.challenge.isNone = true ∧ s.dash.rep.pending = false ∧ s.reporter = .waiting

instance (s : Threads) : Decidable s.Idle :=
  inferInstanceAs (Decidable (_ ∧ _ ∧ _))

/-- The main loop changes the MAC key only while the other threads are idle, and
only reports frames while `s_key` has the mirrored id. -/
def KeepsBinding (_ : List ThreadsOut) (s : Threads) : ThreadsEvent → Prop
  | .loop env ev =>
      (∀ k ∈ adoptedKey env ev, k.macKey = s.dash.rep.macKey ∨ s.Idle) ∧
        (reportsFrame m s.dash ev = true →
          hexString ((movedKey m s.dash ev).getD s.dash.sKey).keyId.toList =
            s.dash.rep.currentKeyIdHex)
  | _ => True

instance (t : List ThreadsOut) (s : Threads) :
    (e : ThreadsEvent) → Decidable (KeepsBinding m t s e)
  | .loop _ _ => inferInstanceAs (Decidable (_ ∧ _))
  | .request _ _ | .respond | .copyEvent | .checkKeyValid | .post _ =>
      inferInstanceAs (Decidable True)

/-! ## The binding -/

section

variable (Issued : SessionKey → Prop)

/-- The event takes over issued keys only. -/
def ThreadsEvent.SuppliesIssued : ThreadsEvent → Prop
  | loop env ev => ∀ k ∈ adoptedKey env ev, Issued k
  | _ => True

/-- The id and the MAC key of one issued key. -/
def IssuedTogether (keyIdHex : List UInt8) (macKey : Bytes 32) : Prop :=
  ∃ k, Issued k ∧ keyIdHex = hexString k.keyId.toList ∧ macKey = k.macKey

/-- A key id goes out with an HMAC under the MAC key issued with it. -/
def ThreadsOut.Bound : ThreadsOut → Prop
  | loop _ => True
  | answered nonceBytes hmacOut keyIdStr =>
      ∃ macKey, IssuedTogether Issued keyIdStr macKey ∧
        m.sstHmacSha256Ex macKey nonceBytes.toList = some hmacOut
  | framePosted ev hmacOut =>
      ∃ macKey, IssuedTogether Issued ev.keyIdHex macKey ∧
        m.sstHmacSha256Ex macKey (frameReportJson ev) = some hmacOut

end

/-! ## The invariant -/

/-- Whatever waits to be sent is bound, with the mirrors as they are. -/
structure Threads.Binding (Issued : SessionKey → Prop) (s : Threads) : Prop where
  valid : s.dash.keyValid = true → s.dash.rep.keyValid = true
  mirrors : s.dash.rep.keyValid = true →
    IssuedTogether Issued s.dash.rep.currentKeyIdHex s.dash.rep.macKey
  challenge : ∀ l ∈ s.challenge, s.dash.rep.keyValid = true ∧
    m.sstHmacSha256Ex s.dash.rep.macKey l.nonceBytes.toList = some l.hmacOut
  pending : s.dash.rep.pending = true →
    IssuedTogether Issued s.dash.rep.event.keyIdHex s.dash.rep.macKey
  reporter : ∀ ev, s.reporter = .copied ev ∨ s.reporter = .posting ev →
    IssuedTogether Issued ev.keyIdHex s.dash.rep.macKey

section

variable {m api} {Issued : SessionKey → Prop}

theorem binding_start (fdOpen : Bool) {sessionKeys : KeyList}
    (hkeys : ∀ k ∈ sessionKeys.bind List.head?, Issued k)
    (memory : List.Vector (Bytes 12) 64) :
    (Threads.start fdOpen sessionKeys memory).Binding m Issued := by
  have hpending : (Dash.start fdOpen sessionKeys memory).rep.pending = false := by
    cases hhead : sessionKeys.bind List.head? with
    | none => simp [Dash.start, hhead, Reporter.initial]
    | some k => simp [Dash.start, hhead, Reporter.initial]
  refine ⟨?_, ?_, ?_, ?_, ?_⟩
  · intro hvalid
    cases hhead : sessionKeys.bind List.head? with
    | none => simp [Threads.start, Dash.start, hhead] at hvalid
    | some k => simp [Threads.start, Dash.start, hhead]
  · intro hvalid
    cases hhead : sessionKeys.bind List.head? with
    | none => simp [Threads.start, Dash.start, hhead, Reporter.initial] at hvalid
    | some k =>
        refine ⟨k, hkeys k hhead, ?_, ?_⟩
        · simp [Threads.start, Dash.start, hhead]
        · simp [Threads.start, Dash.start, hhead]
  · intro l hl
    cases hl
  · intro h
    rw [show (Threads.start fdOpen sessionKeys memory).dash.rep.pending = false
      from hpending] at h
    cases h
  · rintro ev (h | h)
    · cases h
    · cases h

/-- A key that is taken over with the MAC key of the one before, or while nothing is
on its way, leaves everything bound. -/
theorem Threads.Binding.adopt {s : Threads} (hs : s.Binding m Issued)
    {k : SessionKey} (hk : Issued k)
    (hmac : k.macKey = s.dash.rep.macKey ∨ s.Idle) {d' : Dash}
    (hactive : d'.active = .adopt k) (hqueued : d'.queued = s.dash.queued) :
    ({ s with dash := d' } : Threads).Binding m Issued := by
  have hvalid : d'.rep.keyValid = true := congrArg ActiveKey.repKeyValid hactive
  have hmacKey : d'.rep.macKey = k.macKey := congrArg ActiveKey.macKey hactive
  have hid : d'.rep.currentKeyIdHex = hexString k.keyId.toList :=
    congrArg ActiveKey.keyIdHex hactive
  obtain ⟨hpending, hevent⟩ := Prod.mk.inj hqueued
  refine ⟨fun _ => hvalid, fun _ => ⟨k, hk, hid, hmacKey⟩, ?_, ?_, ?_⟩
  · intro l hl
    rcases hmac with hmac | ⟨hnone, -, -⟩
    · rw [hmacKey, hmac]
      exact ⟨hvalid, (hs.challenge l hl).2⟩
    · rw [Option.isNone_iff_eq_none.mp hnone] at hl
      cases hl
  · intro h
    rw [hpending] at h
    rcases hmac with hmac | ⟨-, hnone, -⟩
    · rw [hevent, hmacKey, hmac]
      exact hs.pending h
    · rw [hnone] at h
      cases h
  · intro ev hev
    rcases hmac with hmac | ⟨-, -, hwaiting⟩
    · rw [hmacKey, hmac]
      exact hs.reporter ev hev
    · rw [hwaiting] at hev
      rcases hev with hev | hev
      · cases hev
      · cases hev

/-- A step without a new key leaves the mirrors, and what it queues is bound. -/
theorem Threads.Binding.keep {s : Threads} (hs : s.Binding m Issued) {d' : Dash}
    {k : SessionKey} (hactive : d'.active = s.dash.active.move k)
    (hqueued : d'.queued = s.dash.queued ∨ s.dash.keyValid = true ∧
      d'.rep.event.keyIdHex = s.dash.rep.currentKeyIdHex) :
    ({ s with dash := d' } : Threads).Binding m Issued := by
  have hkeyValid : d'.keyValid = s.dash.keyValid := congrArg ActiveKey.keyValid hactive
  have hvalid : d'.rep.keyValid = s.dash.rep.keyValid :=
    congrArg ActiveKey.repKeyValid hactive
  have hmacKey : d'.rep.macKey = s.dash.rep.macKey := congrArg ActiveKey.macKey hactive
  have hid : d'.rep.currentKeyIdHex = s.dash.rep.currentKeyIdHex :=
    congrArg ActiveKey.keyIdHex hactive
  refine ⟨?_, ?_, ?_, ?_, ?_⟩
  · rw [hkeyValid, hvalid]
    exact hs.valid
  · rw [hvalid, hid, hmacKey]
    exact hs.mirrors
  · rw [hvalid, hmacKey]
    exact hs.challenge
  · intro h
    rw [hmacKey]
    rcases hqueued with hqueued | ⟨hkey, hevent⟩
    · obtain ⟨hpending, hevent⟩ := Prod.mk.inj hqueued
      rw [hpending] at h
      rw [hevent]
      exact hs.pending h
    · rw [hevent]
      exact hs.mirrors (hs.valid hkey)
  · rw [hmacKey]
    exact hs.reporter

/-- The main loop. -/
theorem Threads.Binding.loop {s : Threads} (hs : s.Binding m Issued) (env : DashEnv)
    (ev : DashEvent) (hissued : ∀ k ∈ adoptedKey env ev, Issued k)
    (hadopt : ∀ k ∈ adoptedKey env ev, k.macKey = s.dash.rep.macKey ∨ s.Idle)
    (hreport : reportsFrame m s.dash ev = true →
      hexString ((movedKey m s.dash ev).getD s.dash.sKey).keyId.toList =
        s.dash.rep.currentKeyIdHex) :
    ({ s with dash := (dashStep m api s.dash env ev).1 } : Threads).Binding m
      Issued := by
  have hactive := active_dashStep m api s.dash env ev
  cases hframe : reportsFrame m s.dash ev with
  | true =>
      obtain ⟨-, hadopted, hvalid, hid⟩ := active_of_reportsFrame m api s.dash env hframe
      let k := (movedKey m s.dash ev).getD s.dash.sKey
      have hmove : (dashStep m api s.dash env ev).1.active = s.dash.active.move k := by
        rw [hactive, hadopted]
        exact ActiveKey.next_none s.dash.active (movedKey m s.dash ev)
      have hsKey : (dashStep m api s.dash env ev).1.sKey = k :=
        congrArg ActiveKey.sKey hmove
      refine hs.keep hmove (Or.inr ⟨hvalid, ?_⟩)
      rw [hid, hsKey]
      exact hreport hframe
  | false =>
      have hqueued : (dashStep m api s.dash env ev).1.queued = s.dash.queued :=
        congrArg Prod.snd (published_dashStep m api s.dash env hframe)
      cases hkey : adoptedKey env ev with
      | some k =>
          rw [hkey] at hactive
          exact hs.adopt (hissued k hkey) (hadopt k hkey) hactive hqueued
      | none =>
          rw [hkey] at hactive
          exact hs.keep (hactive.trans (ActiveKey.next_none _ _)) (Or.inl hqueued)

/-! ## The other threads -/

/-- The buffer for an HMAC is always filled. -/
theorem hmac_eq_getD (hm : m.Total) (key : Bytes 32) (input : List UInt8)
    (stack : Bytes 32) :
    m.sstHmacSha256Ex key input = some ((m.sstHmacSha256Ex key input).getD stack) := by
  obtain ⟨mac, hmac⟩ := Option.isSome_iff_exists.mp (hm.hmac key input)
  simp only [Mbedtls.sstHmacSha256Ex, hmac, Option.getD_some]

theorem binding_copyMacKey (hm : m.Total) {s : Threads} (hs : s.Binding m Issued)
    (body : List UInt8) (stack : Bytes 32) :
    (copyMacKey m body stack s).Binding m Issued := by
  rw [copyMacKey]
  split
  · split
    · next hvalid =>
        refine ⟨hs.valid, hs.mirrors, ?_, hs.pending, hs.reporter⟩
        intro l hl
        cases hl
        exact ⟨hvalid, hmac_eq_getD hm ..⟩
    · exact hs
  · exact hs

/-- The response to a challenge carries the id of the key its HMAC was made with. -/
theorem binding_respond {s : Threads} (hs : s.Binding m Issued) :
    (respond s).1.Binding m Issued ∧ ∀ o ∈ (respond s).2, o.Bound m Issued := by
  rw [respond]
  split
  · exact ⟨hs, List.forall_mem_nil _⟩
  · next l hl =>
      obtain ⟨hvalid, hmac⟩ := hs.challenge l hl
      constructor
      · refine ⟨hs.valid, hs.mirrors, ?_, hs.pending, hs.reporter⟩
        intro l' hl'
        cases hl'
      · rw [List.forall_mem_singleton]
        exact ⟨s.dash.rep.macKey, hs.mirrors hvalid, hmac⟩

theorem binding_copyEvent {s : Threads} (hs : s.Binding m Issued) :
    (copyEvent s).Binding m Issued := by
  rw [copyEvent]
  split
  · split
    · next hpending =>
        refine ⟨hs.valid, hs.mirrors, hs.challenge, fun h => (by cases h), ?_⟩
        rintro ev (hev | hev)
        · cases hev
          exact hs.pending hpending
        · cases hev
    · exact hs
  · exact hs

theorem binding_checkKeyValid {s : Threads} (hs : s.Binding m Issued) :
    (checkKeyValid s).Binding m Issued := by
  rw [checkKeyValid]
  split
  · next ev hcopied =>
      refine ⟨hs.valid, hs.mirrors, hs.challenge, hs.pending, ?_⟩
      intro ev' hev'
      have hsame : ev' = ev := by
        simp only at hev'
        split at hev'
        · simpa [eq_comm] using hev'
        · simp at hev'
      rw [hsame]
      exact hs.reporter ev (Or.inl hcopied)
  · exact hs

/-- A posted report carries the id of the key its HMAC was made with. -/
theorem binding_reporterPost (hm : m.Total) {s : Threads} (hs : s.Binding m Issued)
    (stack : Bytes 32) :
    (reporterPost m stack s).1.Binding m Issued ∧
      ∀ o ∈ (reporterPost m stack s).2, o.Bound m Issued := by
  rw [reporterPost]
  split
  · next ev hposting =>
      constructor
      · refine ⟨hs.valid, hs.mirrors, hs.challenge, hs.pending, ?_⟩
        rintro ev' (hev | hev)
        · cases hev
        · cases hev
      · rw [List.forall_mem_singleton]
        exact ⟨s.dash.rep.macKey, hs.reporter ev (Or.inr hposting),
          hmac_eq_getD hm ..⟩
  · exact ⟨hs, List.forall_mem_nil _⟩

/-! ## Interleavings -/

/-- In every interleaving in which the MAC key changes only while the other threads
are idle, and frames are only reported under the mirrored id, all that is sent is
bound. -/
theorem sent_bound (hm : m.Total) (fdOpen : Bool) {sessionKeys : KeyList}
    (hkeys : ∀ k ∈ sessionKeys.bind List.head?, Issued k)
    (memory : List.Vector (Bytes 12) 64) {es : List ThreadsEvent}
    (hes : ∀ e ∈ es, e.SuppliesIssued Issued)
    (hkeep : (threads m api).Admissible (KeepsBinding m) []
      (Threads.start fdOpen sessionKeys memory) es) :
    ∀ o ∈ (threads m api).trace (Threads.start fdOpen sessionKeys memory) es,
      o.Bound m Issued := by
  refine Machine.Admissible.forall_mem_trace (P := Threads.Binding m Issued) ?_
    hkeep (binding_start fdOpen hkeys memory)
  intro t s e he hs hok
  have hsupplies := hes e he
  cases e with
  | loop env ev =>
      refine ⟨hs.loop env ev hsupplies hok.1 hok.2, ?_⟩
      intro o ho
      obtain ⟨o', -, rfl⟩ := List.mem_map.mp ho
      exact trivial
  | request body stack =>
      exact ⟨binding_copyMacKey hm hs body stack, List.forall_mem_nil _⟩
  | respond => exact binding_respond hs
  | copyEvent => exact ⟨binding_copyEvent hs, List.forall_mem_nil _⟩
  | checkKeyValid => exact ⟨binding_checkKeyValid hs, List.forall_mem_nil _⟩
  | post stack => exact binding_reporterPost hm hs stack

end

/-! ## A key change between the two locks -/

/-- The second key, as the dashboard pushes it. -/
def pushKeyTwo : RemoteForce where
  hasTarget := true
  targetId := List.Vector.replicate 8 4
  hasMaterial := true
  cipherKey := List.Vector.replicate 16 5
  macKey := List.Vector.replicate 32 6

/-- A challenge with a nonce of sevens. -/
def challengeSevens : ThreadsEvent :=
  .request (challengeBody (List.Vector.replicate 32 7)) (Bytes.zero 32)

/-- The key changes while the challenge is being answered. -/
def changeBeforeResponse : List ThreadsEvent :=
  [challengeSevens, .loop .bare (.key (.f pushKeyTwo)), .respond]

/-- The response has the id of the second key and the HMAC of the first. -/
theorem response_mixes_keys :
    (∀ k ∈ (some [keyOne]).bind List.head?, k ∈ [keyOne, pushKeyTwo.pushed]) ∧
      (∀ e ∈ changeBeforeResponse,
        e.SuppliesIssued (· ∈ [keyOne, pushKeyTwo.pushed])) ∧
      ¬ ∀ o ∈ (threads .transparent .failing).trace (Threads.start true (some [keyOne])
          (List.Vector.replicate 64 (Bytes.zero 12))) changeBeforeResponse,
        o.Bound .transparent (· ∈ [keyOne, pushKeyTwo.pushed]) := by
  have hanswer : ThreadsOut.answered (List.Vector.replicate 32 7)
      (List.Vector.replicate 32 3) (hexString (List.replicate 8 4)) ∈
        (threads .transparent .failing).trace (Threads.start true (some [keyOne])
          (List.Vector.replicate 64 (Bytes.zero 12))) changeBeforeResponse := by
    decide +kernel
  refine ⟨by decide +kernel, ?_, ?_⟩
  · simp [changeBeforeResponse, challengeSevens, ThreadsEvent.SuppliesIssued,
      adoptedKey, pushKeyTwo]
  · intro hbound
    obtain ⟨macKey, ⟨k, hk, hid, rfl⟩, hmac⟩ := hbound _ hanswer
    have hcases : k = keyOne ∨ k = pushKeyTwo.pushed := by simpa using hk
    rcases hcases with rfl | rfl
    · revert hid
      decide +kernel
    · revert hmac
      decide +kernel

/-- The key changes between two challenges. -/
def changeBetweenChallenges : List ThreadsEvent :=
  [challengeSevens, .respond, .loop .bare (.key (.f pushKeyTwo)), challengeSevens,
    .respond]

/-- The second response has the id and the HMAC of the second key. -/
theorem sent_bound_changeBetweenChallenges :
    (ThreadsOut.answered (List.Vector.replicate 32 7) (List.Vector.replicate 32 6)
      (hexString (List.replicate 8 4))).Bound .transparent
        (· ∈ [keyOne, pushKeyTwo.pushed]) := by
  have hbound : ∀ o ∈ (threads .transparent .failing).trace
      (Threads.start true (some [keyOne]) (List.Vector.replicate 64 (Bytes.zero 12)))
        changeBetweenChallenges,
      o.Bound .transparent (· ∈ [keyOne, pushKeyTwo.pushed]) := by
    refine sent_bound Mbedtls.total_transparent true ?_ _ ?_ ?_
    · decide +kernel
    · simp [changeBetweenChallenges, challengeSevens, ThreadsEvent.SuppliesIssued,
        adoptedKey, pushKeyTwo]
    · decide +kernel
  exact hbound _ (by decide +kernel)

end LifiAuth
