import LifiAuth.Pico.Drain
import LifiAuth.System.Authenticity

/-!
# The outcome of a key update

`new key -f` makes the receiver fetch a key and send it to the sender, which
installs it at once; the receiver itself changes over when an `ACK` comes and keeps
its old key when none comes in time.
-/

namespace LifiAuth

open Support

variable (m : Mbedtls) (hse : HeatshrinkEncoder) (api : SstApi)

/-! ## Runs of the exchange -/

/-- Keys reach the sender in KEY frames only, and the receiver by the exchange
only. -/
def exchangeOnly : LinkIn → Bool
  | .inl (_, .uart (.key _ _ _)) => true
  | .inl (_, ev) => keepsKeys ev
  | .inr (_, .key .n) => false
  | .inr (_, .key (.f _)) => false
  | .inr (_, .uart (.frame (.keyIdOnly _ _))) => false
  | .inr _ => true

def KeyUpdateRules (_ : List LinkOut) (_ : Pico × Dash) (i : LinkIn) : Prop :=
  exchangeOnly i = true

instance (t : List LinkOut) (s : Pico × Dash) (i : LinkIn) :
    Decidable (KeyUpdateRules t s i) :=
  inferInstanceAs (Decidable (_ = true))

/-- The outputs that say what becomes of the receiver's key. -/
def DashOut.movesKey : DashOut → Bool
  | keyIssued _ _ | ackReceived => true
  | _ => false

/-- No KEY frame is issued for a request. -/
def NoIssue (t : List LinkOut) : Prop :=
  ∀ active k, .inr (.keyIssued active k) ∉ t

/-- The keys the sender takes, oldest first. -/
def receivedKeys (t : List LinkOut) : List (Bytes 8 × Bytes 16 × Bytes 32) :=
  t.filterMap fun
    | .inl (.keyReceived id key macKey) => some (id, key, macKey)
    | _ => none

/-! ## What a step of the receiver does to its key -/

/-- The receiver's key after a step. -/
inductive KeyEffect (d : Dash) (r : Dash × List DashOut) : Prop where
  | kept (key : r.1.sKey = d.sKey)
      (waiting : r.1.state = .waitingForAck → d.state = .waitingForAck ∧
        r.1.pendingKey = d.pendingKey ∧
        (.fetchFailed ∉ r.2 → r.1.keyList = d.keyList))
      (quiet : ∀ o ∈ r.2, o.movesKey = false)
  | issued (k : SessionKey) (ks : List SessionKey) (early late : List DashOut)
      (key : r.1.sKey = d.sKey) (pending : r.1.pendingKey = k.cipherKey)
      (keyList : r.1.keyList = some (k :: ks))
      (out : r.2 = early ++ .keyIssued d.sKey k :: late)
      (quiet : ∀ o ∈ early ++ late, o.movesKey = false)
  | acked (before : d.state = .waitingForAck) (key : r.1.sKey = d.ackedKey)
      (after : r.1.state = .idle) (out : .ackReceived ∈ r.2)
      (only : ∀ active k, .keyIssued active k ∉ r.2)

section

variable {m api} {env : DashEnv}

theorem quiet_nil : ∀ o ∈ ([] : List DashOut), o.movesKey = false := by
  intro o ho
  exact absurd ho List.not_mem_nil

theorem keyEffect_refl (d : Dash) : KeyEffect d (d, []) :=
  .kept rfl (fun h => ⟨h, rfl, fun _ => rfl⟩) quiet_nil

/-- A handshake only moves to the wait for its answer. -/
theorem keyEffect_startHandshake (d : Dash) :
    KeyEffect d (startHandshake api env d) := by
  simp only [startHandshake]
  split
  · exact .kept rfl (fun h => ⟨h, rfl, fun _ => rfl⟩) quiet_nil
  · split
    · exact .kept rfl (fun h => ⟨h, rfl, fun _ => rfl⟩) (by simp [DashOut.movesKey])
    · split
      · exact .kept rfl (by simp) (by simp [DashOut.movesKey])
      · exact .kept rfl (fun h => ⟨h, rfl, fun _ => rfl⟩) (by simp [DashOut.movesKey])

theorem keyEffect_handleNewKeyForced (d : Dash) :
    KeyEffect d (handleNewKeyForced env d) := by
  rw [handleNewKeyForced]
  split
  · refine .kept rfl ?_ (by simp [DashOut.movesKey])
    intro h
    exact ⟨h, rfl, fun hfail => absurd (List.mem_singleton_self _) hfail⟩
  · refine .kept rfl ?_ (by simp [DashOut.movesKey])
    intro h
    exact ⟨h, rfl, fun hfail => absurd (List.mem_singleton_self _) hfail⟩
  · next k ks hkeys =>
      exact .issued k ks [] _ rfl rfl rfl rfl (by simp [DashOut.movesKey])

theorem keyEffect_handleMessage (decrypted : List UInt8) (d : Dash) :
    KeyEffect d (handleMessage api env decrypted d) := by
  rcases handleMessage_cases api env decrypted d with
    hquiet | hforced | hnew | ⟨hstate, hack⟩ | hverify
  · rw [hquiet]
    exact keyEffect_refl d
  · rw [hforced]
    exact keyEffect_handleNewKeyForced d
  · rw [hnew, handleNewKey]
    split
    · exact keyEffect_refl d
    · exact .kept rfl (by simp) quiet_nil
  · rw [hack]
    exact .acked hstate rfl rfl (List.mem_singleton_self _) (by simp)
  · rw [hverify, handleVerifyKey]
    split
    · exact keyEffect_startHandshake d
    · exact keyEffect_refl d

theorem keyEffect_handleDecrypted (t : DataType) (decrypted : List UInt8)
    (d : Dash) : KeyEffect d (handleDecrypted api env t decrypted d) := by
  cases t with
  | file => exact keyEffect_refl d
  | encrypted => exact keyEffect_handleMessage decrypted d

/-- What comes before and after the message does not touch the key. -/
theorem KeyEffect.accepted {d : Dash} {nonce : Bytes 12} {r : Dash × List DashOut}
    (h : KeyEffect (d.counted.record nonce) r) (key : Bytes 16) (t : DataType)
    (c : Ctext) (tag : Bytes 16) (decrypted : List UInt8) :
    KeyEffect d (finishData c.1 decrypted r.1,
      .accepted key t nonce c tag decrypted :: r.2) := by
  cases h with
  | kept key waiting quiet =>
      refine .kept key ?_ (List.forall_mem_cons.mpr ⟨rfl, quiet⟩)
      intro h
      obtain ⟨hstate, hpending, hlist⟩ := waiting h
      refine ⟨hstate, hpending, ?_⟩
      intro hfail
      exact hlist fun hmem => hfail (List.mem_cons_of_mem _ hmem)
  | issued k ks early late hkey pending keyList out quiet =>
      refine .issued k ks (.accepted key t nonce c tag decrypted :: early) late
        hkey pending keyList ?_ (List.forall_mem_cons.mpr ⟨rfl, quiet⟩)
      rw [out]
      rfl
  | acked before key after out only =>
      refine .acked before key after (List.mem_cons_of_mem _ out) ?_
      intro active k hmem
      rcases List.mem_cons.mp hmem with heq | hmem
      · cases heq
      · exact only active k hmem

theorem keyEffect_handleData (t : DataType) (nonce : Bytes 12)
    (ciphertext : Ctext) (tag : Bytes 16) (d : Dash) :
    KeyEffect d (handleData m api env t nonce ciphertext tag d.counted) := by
  rw [handleData]
  split
  · exact .kept rfl (fun h => ⟨h, rfl, fun _ => rfl⟩) quiet_nil
  · rw [decryptData]
    split
    · split
      · exact .kept rfl (fun h => ⟨h, rfl, fun _ => rfl⟩) quiet_nil
      · exact (keyEffect_handleDecrypted t _ _).accepted _ t ciphertext tag _
    · exact .kept rfl (fun h => ⟨h, rfl, fun _ => rfl⟩) quiet_nil

theorem keyEffect_handleSstHs2 (hs2 : Bytes 80) (d : Dash) :
    KeyEffect d (handleSstHs2 api env hs2 d.counted) := by
  rw [handleSstHs2]
  split
  · exact .kept rfl (fun h => ⟨h, rfl, fun _ => rfl⟩) quiet_nil
  · refine .kept rfl (by simp) ?_
    split
    · simp
    · split
      · simp [DashOut.movesKey]
      · simp [DashOut.movesKey]

theorem keyEffect_dashStep (d : Dash) (ev : DashEvent)
    (hev : exchangeOnly (.inr (env, ev)) = true) :
    KeyEffect d (dashStep m api d env ev) := by
  cases ev with
  | key key =>
      cases key with
      | n => cases hev
      | f remote => cases hev
      | one =>
          simp only [dashStep, handleKey, sendActiveKey]
          split
          · refine .kept rfl (fun h => ⟨h, rfl, fun _ => rfl⟩) ?_
            split
            · simp [DashOut.movesKey]
            · simp
          · exact keyEffect_refl d
      | two =>
          simp only [dashStep, handleKey]
          split
          · exact keyEffect_startHandshake d
          · exact keyEffect_refl d
      | c => exact .kept rfl (fun h => ⟨h, rfl, fun _ => rfl⟩) quiet_nil
      | r => exact .kept rfl (fun h => ⟨h, rfl, fun _ => rfl⟩) quiet_nil
  | timeout =>
      simp only [dashStep, handleTimeout]
      split
      · exact keyEffect_refl d
      · exact .kept rfl (by simp) quiet_nil
      · exact .kept rfl (by simp) quiet_nil
      · exact .kept rfl (by simp) quiet_nil
  | uart r =>
      cases r with
      | frame f =>
          cases f with
          | keyIdOnly payload hlen => cases hev
          | sstHs2 hs2 => exact keyEffect_handleSstHs2 hs2 d
          | data t nonce ciphertext tag =>
              exact keyEffect_handleData t nonce ciphertext tag d
      | crcFail type =>
          simp only [dashStep, handleReport]
          split
          · exact .kept rfl (fun h => ⟨h, rfl, fun _ => rfl⟩) quiet_nil
          · exact .kept rfl (fun h => ⟨h, rfl, fun _ => rfl⟩) quiet_nil
      | _ => exact .kept rfl (fun h => ⟨h, rfl, fun _ => rfl⟩) quiet_nil

end

/-! ## What becomes of an issued key -/

/-- What holds of the receiver after it issued `k` while `active` was in use, as
long as it issues no other key. -/
structure UpdateOutcome (active k : SessionKey) (after : List LinkOut)
    (d : Dash) : Prop where
  unacked : .inr .ackReceived ∉ after → d.sKey = active ∧
    (d.state = .waitingForAck → d.pendingKey = k.cipherKey ∧
      (.inr .fetchFailed ∉ after → ∃ ks, d.keyList = some (k :: ks)))
  acked : .inr .ackReceived ∈ after → d.state ≠ .waitingForAck ∧
    (.inr .fetchFailed ∉ after →
      d.sKey.keyId = k.keyId ∧ d.sKey.cipherKey = k.cipherKey)

section

variable {m hse api} {active k : SessionKey} {after : List LinkOut} {d : Dash}
  {r : Dash × List DashOut}

theorem inr_mem_map_inr {o : DashOut} {out : List DashOut} :
    (.inr o : LinkOut) ∈ out.map Sum.inr ↔ o ∈ out :=
  List.mem_map_of_injective Sum.inr_injective

theorem UpdateOutcome.step (h : UpdateOutcome active k after d)
    (heffect : KeyEffect d r) (hnone : NoIssue (r.2.map Sum.inr)) :
    UpdateOutcome active k (after ++ r.2.map Sum.inr) r.1 := by
  cases heffect with
  | kept key waiting quiet =>
      have hack : .inr .ackReceived ∈ after ++ r.2.map Sum.inr ↔
          .inr .ackReceived ∈ after := by
        rw [List.mem_append, inr_mem_map_inr, or_iff_left_iff_imp]
        intro hmem
        cases quiet _ hmem
      constructor
      · intro hno
        obtain ⟨hkey, hwait⟩ := h.unacked (mt hack.mpr hno)
        refine ⟨key.trans hkey, ?_⟩
        intro hstate
        obtain ⟨hbefore, hpending, hlist⟩ := waiting hstate
        obtain ⟨hpending', hlist'⟩ := hwait hbefore
        refine ⟨hpending.trans hpending', ?_⟩
        intro hfail
        rw [List.mem_append, not_or, inr_mem_map_inr] at hfail
        rw [hlist hfail.2]
        exact hlist' hfail.1
      · intro hyes
        obtain ⟨hstate, hkey⟩ := h.acked (hack.mp hyes)
        refine ⟨fun hwait => hstate (waiting hwait).1, ?_⟩
        intro hfail
        rw [List.mem_append, not_or] at hfail
        rw [key]
        exact hkey hfail.1
  | issued k' ks early late key pending keyList out quiet =>
      refine absurd ?_ (hnone d.sKey k')
      rw [inr_mem_map_inr, out]
      exact List.mem_append_right _ List.mem_cons_self
  | acked before key hafter out only =>
      have hmem : .inr .ackReceived ∈ after ++ r.2.map Sum.inr :=
        List.mem_append_right _ (inr_mem_map_inr.mpr out)
      refine ⟨fun hno => absurd hmem hno, fun _ => ⟨?_, ?_⟩⟩
      · rw [hafter]
        simp
      · intro hfail
        rw [List.mem_append, not_or] at hfail
        -- a second acknowledgement finds no waiting receiver
        have hno : .inr .ackReceived ∉ after :=
          fun hyes => (h.acked hyes).1 before
        obtain ⟨hpending, hlist⟩ := (h.unacked hno).2 before
        obtain ⟨ks, hks⟩ := hlist hfail.1
        rw [key, Dash.ackedKey, hks]
        exact ⟨rfl, hpending⟩

/-- A step that issues a key leaves the receiver waiting with it. -/
theorem updateOutcome_issued {k' : SessionKey} {ks : List SessionKey}
    {early late : List DashOut} {w : List LinkOut}
    (hkey : r.1.sKey = d.sKey) (hpending : r.1.pendingKey = k'.cipherKey)
    (hlist : r.1.keyList = some (k' :: ks))
    (hout : r.2 = early ++ .keyIssued d.sKey k' :: late)
    (hquiet : ∀ o ∈ early ++ late, o.movesKey = false)
    (hsplit : r.2.map Sum.inr = w ++ .inr (.keyIssued active k) :: after) :
    UpdateOutcome active k after r.1 := by
  have hno : ∀ out : List DashOut, (∀ o ∈ out, o.movesKey = false) →
      (.inr (.keyIssued active k) : LinkOut) ∉ out.map Sum.inr := by
    intro out hout hmem
    cases hout _ (inr_mem_map_inr.mp hmem)
  obtain ⟨hearly, hlate⟩ := List.forall_mem_append.mp hquiet
  rw [hout, List.map_append, List.map_cons] at hsplit
  -- the key can only be the one issued between `early` and `late`
  rcases Machine.split_of_append hsplit with ⟨w', hold, -⟩ | ⟨w', -, hnew⟩
  · exact absurd (hold ▸ List.mem_append_right _ List.mem_cons_self)
      (hno early hearly)
  · cases w' with
    | nil =>
        obtain ⟨heq, rfl⟩ := List.cons.inj hnew
        obtain ⟨rfl, rfl⟩ := DashOut.keyIssued.inj (Sum.inr.inj heq)
        constructor
        · intro _
          exact ⟨hkey, fun _ => ⟨hpending, fun _ => ⟨ks, hlist⟩⟩⟩
        · intro hack
          cases hlate _ (inr_mem_map_inr.mp hack)
    | cons o w' =>
        obtain ⟨-, hrest⟩ := List.cons.inj hnew
        exact absurd (hrest ▸ List.mem_append_right _ List.mem_cons_self)
          (hno late hlate)

/-- The outcome of every key issued so far. -/
def IssuedOutcomes (t : List LinkOut) (d : Dash) : Prop :=
  ∀ before after active k, t = before ++ .inr (.keyIssued active k) :: after →
    NoIssue after → UpdateOutcome active k after d

theorem issuedOutcomes_nil (d : Dash) : IssuedOutcomes [] d := by
  intro before after active k h
  simp at h

theorem IssuedOutcomes.sender {t : List LinkOut}
    (h : IssuedOutcomes t d) (out : List PicoOut) :
    IssuedOutcomes (t ++ out.map Sum.inl) d := by
  intro before after active k ht hnone
  rcases Machine.split_of_append ht with ⟨w, hold, rfl⟩ | ⟨w, -, hout⟩
  · have hmem (o : DashOut) : .inr o ∈ w ++ out.map Sum.inl ↔ .inr o ∈ w := by
      simp
    obtain ⟨hunacked, hacked⟩ :=
      h before w active k hold fun a k' h => hnone a k' ((hmem _).mpr h)
    refine ⟨?_, ?_⟩
    · rw [hmem, hmem]
      exact hunacked
    · rw [hmem, hmem]
      exact hacked
  · have hmem : (.inr (.keyIssued active k) : LinkOut) ∈ out.map Sum.inl :=
      hout ▸ List.mem_append_right _ List.mem_cons_self
    simp at hmem

theorem IssuedOutcomes.receiver {t : List LinkOut}
    (h : IssuedOutcomes t d) (heffect : KeyEffect d r) :
    IssuedOutcomes (t ++ r.2.map Sum.inr) r.1 := by
  intro before after active k ht hnone
  rcases Machine.split_of_append ht with ⟨w, hold, rfl⟩ | ⟨w, -, hout⟩
  · refine (h before w active k hold ?_).step heffect ?_
    · exact fun a k' hmem => hnone a k' (List.mem_append_left _ hmem)
    · exact fun a k' hmem => hnone a k' (List.mem_append_right _ hmem)
  · have hmem : DashOut.keyIssued active k ∈ r.2 :=
      inr_mem_map_inr.mp (hout ▸ List.mem_append_right _ List.mem_cons_self)
    cases heffect with
    | kept key waiting quiet => cases quiet _ hmem
    | issued k' ks early late key pending keyList out quiet =>
        exact updateOutcome_issued key pending keyList out quiet hout
    | acked before key hafter out only => exact absurd hmem (only active k)

end

/-! ## The key of the sender -/

/-- The key triple of the sender. -/
def Pico.installed (p : Pico) : Bytes 8 × Bytes 16 × Bytes 32 :=
  (p.sessionKeyId, p.sessionKey, p.sessionMacKey)

theorem receivedKeys_append (t u : List LinkOut) :
    receivedKeys (t ++ u) = receivedKeys t ++ receivedKeys u :=
  List.filterMap_append

theorem receivedKeys_map_inr (out : List DashOut) :
    receivedKeys (out.map Sum.inr) = [] := by
  apply filterMap_map_eq_nil
  intro o _
  rfl

theorem receivedKeys_of_takesNoKey {out : List PicoOut} (h : TakesNoKey out) :
    receivedKeys (out.map Sum.inl) = [] := by
  apply filterMap_map_eq_nil
  intro o ho
  cases o with
  | keyReceived id key macKey => exact absurd ho (h id key macKey)
  | _ => rfl

/-- The sender uses the key it took last. -/
def HoldsLast (t : List LinkOut) (p : Pico) : Prop :=
  ∀ x, (receivedKeys t).getLast? = some x → p.installed = x

theorem holdsLast_nil (p : Pico) : HoldsLast [] p := by
  intro x hx
  cases hx

theorem takesNoKey_picoNonceInit (env : PicoEnv) (p : Pico) :
    TakesNoKey (picoNonceInit env p).2 := by
  rw [picoNonceInit]
  split
  · simp [TakesNoKey]
  · simp [TakesNoKey]

/-- An event that leaves the keys alone takes none and keeps the installed one. -/
theorem installed_of_keepsKeys (p : Pico) (env : PicoEnv) (ev : PicoEvent)
    (hkeeps : keepsKeys ev = true) :
    (picoStep m hse p env ev).1.installed = p.installed ∧
      TakesNoKey (picoStep m hse p env ev).2 := by
  cases handshakeEffect_picoStep m hse p env ev hkeeps with
  | quiet same silent keyless =>
      refine ⟨?_, keyless⟩
      rw [Pico.installed, same.keyId, same.key, same.macKey]
      rfl
  | answered hs1 entityNonce hs2 event opened built result =>
      rw [result]
      exact ⟨rfl, by simp [TakesNoKey]⟩
  | forgot result =>
      rw [result]
      exact ⟨rfl, takesNoKey_nil⟩
  | authenticated hs3 plain event opened ok result =>
      rw [result]
      exact ⟨rfl, by simp [TakesNoKey]⟩

/-- The exchange changes the keys of the sender by KEY frames only. -/
theorem key_of_exchangeOnly {env : PicoEnv} {ev : PicoEvent}
    (hev : exchangeOnly (.inl (env, ev)) = true) (hkeeps : ¬ keepsKeys ev = true) :
    ∃ id key macKey, ev = .uart (.key id key macKey) := by
  cases ev with
  | uart r =>
      cases r with
      | key id key macKey => exact ⟨id, key, macKey, rfl⟩
      | _ => exact absurd rfl hkeeps
  | line text => exact absurd hev hkeeps
  | boot => exact absurd hev hkeeps

/-- A KEY frame installs what it carries. -/
theorem installed_of_key (p : Pico) (env : PicoEnv) (id : Bytes 8)
    (key : Bytes 16) (macKey : Bytes 32) :
    (picoStep m hse p env (.uart (.key id key macKey))).1.installed =
        (id, key, macKey) ∧
      receivedKeys ((picoStep m hse p env (.uart (.key id key macKey))).2.map
        Sum.inl) = [(id, key, macKey)] := by
  have hout := receivedKeys_of_takesNoKey (takesNoKey_picoNonceInit env
    { (installKey m id key p).2 with sessionKeyId := id, sessionMacKey := macKey })
  refine ⟨?_, congrArg (List.cons (id, key, macKey)) hout⟩
  simp only [picoStep, handlePicoReport, handleKeyFrame, picoNonceOnKeyChange,
    picoNonceInit]
  split
  · rfl
  · rfl

theorem HoldsLast.sender {t : List LinkOut} {p : Pico} (h : HoldsLast t p)
    (env : PicoEnv) (ev : PicoEvent) (hev : exchangeOnly (.inl (env, ev)) = true) :
    HoldsLast (t ++ (picoStep m hse p env ev).2.map Sum.inl)
      (picoStep m hse p env ev).1 := by
  intro x hx
  rw [receivedKeys_append] at hx
  by_cases hkeeps : keepsKeys ev = true
  · obtain ⟨hinstalled, hnone⟩ :=
      installed_of_keepsKeys m hse p env ev hkeeps
    rw [receivedKeys_of_takesNoKey hnone, List.append_nil] at hx
    rw [hinstalled]
    exact h x hx
  · obtain ⟨id, key, macKey, rfl⟩ := key_of_exchangeOnly hev hkeeps
    obtain ⟨hinstalled, hreceived⟩ := installed_of_key m hse p env id key macKey
    rw [hreceived, List.getLast?_concat] at hx
    rw [hinstalled]
    exact Option.some.inj hx

theorem HoldsLast.receiver {t : List LinkOut} {p : Pico} (h : HoldsLast t p)
    (out : List DashOut) : HoldsLast (t ++ out.map Sum.inr) p := by
  intro x hx
  rw [receivedKeys_append, receivedKeys_map_inr, List.append_nil] at hx
  exact h x hx

/-- A KEY frame of the receiver that arrives back to back reaches the sender's
handler with the same id and keys. -/
theorem picoReports_keyFrame (keyId : Bytes 8) (key : Bytes 16)
    (macKey : Bytes 32) :
    picoReports 5 ⟨0, steady (keyFrame keyId key macKey)⟩ =
      [.quiet, .quiet, .quiet, .quiet, .key keyId key macKey] := by
  have hframe : keyFrame keyId key macKey = preamble ++ msgTypeKey ::
      ((lenBytes keyFrameLen).toList ++ (keyId.toList ++
        (key.toList ++ (macKey.toList ++ [])))) := by
    simp [keyFrame, keyFrameParts, txHeader]
  -- The preamble and the type byte take one pass each.
  have hheader (rest : List UInt8) :
      picoReports 5 ⟨0, steady (preamble ++ msgTypeKey :: rest)⟩ =
        [.quiet, .quiet, .quiet, .quiet, (readKey (steady rest)).1] := by
    have htype (line : List RxEvent) : picoReadFrame msgTypeKey line = readKey line := by
      rw [picoReadFrame, if_neg (by decide), if_neg (by decide), if_pos rfl]
    simp [picoReports, preamble, steady, picoUartIter, picoByte, htype]
  obtain ⟨line', hread, -⟩ :=
    readKey_of_carries _ keyId key macKey (carries_steady _)
  rw [hframe, hheader, hread]

/-! ## The outcome of a run -/

section

variable {m hse api} {s₀ s : Pico × Dash} {t : List LinkOut}

theorem keyUpdate_invariant
    (h : (lifiLink m hse api).Reach KeyUpdateRules s₀ t s) :
    IssuedOutcomes t s.2 ∧ HoldsLast t s.1 := by
  refine h.invariant (P := fun t s => IssuedOutcomes t s.2 ∧ HoldsLast t s.1)
    ⟨issuedOutcomes_nil _, holdsLast_nil _⟩ ?_
  rintro t s i ⟨hissued, hlast⟩ hi
  rcases i with ⟨env, ev⟩ | ⟨env, ev⟩
  · exact ⟨hissued.sender _, hlast.sender m hse env ev hi⟩
  · exact ⟨hissued.receiver (keyEffect_dashStep s.2 ev hi), hlast.receiver _⟩

/-- After a KEY frame was issued and no other one, with the sender using the key
of that frame: a receiver that took an acknowledgement has the same key id and
cipher key as the sender, unless a later request failed; a receiver that took none
has the key from before the request. -/
theorem key_update_outcome
    (h : (lifiLink m hse api).Reach KeyUpdateRules s₀ t s)
    {before after : List LinkOut} {active k : SessionKey}
    (ht : t = before ++ .inr (.keyIssued active k) :: after)
    (hnone : NoIssue after)
    (hreceived : (receivedKeys after).getLast? =
      some (k.keyId, k.aesKey, k.macKey)) :
    (.inr .ackReceived ∈ after → .inr .fetchFailed ∉ after →
      s.2.sKey.keyId = s.1.sessionKeyId ∧ s.2.sKey.aesKey = s.1.sessionKey) ∧
    (.inr .ackReceived ∉ after → s.2.sKey = active) := by
  obtain ⟨hissued, hlast⟩ := keyUpdate_invariant h
  have houtcome := hissued before after active k ht hnone
  have hinstalled : s.1.installed = (k.keyId, k.aesKey, k.macKey) := by
    apply hlast
    rw [ht, ← List.singleton_append, ← List.append_assoc, receivedKeys_append,
      List.getLast?_append, hreceived]
    rfl
  obtain ⟨hid, hrest⟩ := Prod.mk.inj hinstalled
  obtain ⟨hkey, -⟩ := Prod.mk.inj hrest
  constructor
  · intro hack hfail
    obtain ⟨hkeyId, hcipher⟩ := (houtcome.acked hack).2 hfail
    rw [hid, hkey, SessionKey.aesKey, hcipher]
    exact ⟨hkeyId, rfl⟩
  · intro hack
    exact (houtcome.unacked hack).1

end

/-! ## A timeout after the sender has changed over -/

def newKey : SessionKey where
  keyId := List.Vector.replicate 8 6
  cipherKey := List.Vector.replicate 32 8
  macKey := List.Vector.replicate 32 10

/-- Surroundings in which Auth answers with the new key. -/
def authAnswers : DashEnv :=
  { DashEnv.bare with sessionKeys := some [newKey] }

/-- The request, and the nonce after it. -/
def requestFrame : DashEvent :=
  .uart (.frame (.data .encrypted firstNonce ⟨ascii "new key -f", by decide⟩
    sharedKey.aesKey))

def secondNonce : Bytes 12 := gcmNonce (List.Vector.replicate 8 1) 1

/-- An acknowledgement under `key`. -/
def ackFrame (key : Bytes 16) (nonce : Bytes 12) : DashEvent :=
  .uart (.frame (.data .encrypted nonce ⟨ascii "ACK", by decide⟩ key))

/-- The sender takes the new key and draws a salt. -/
def takesNewKey : PicoEnv × PicoEvent :=
  (.withSalt (some (List.Vector.replicate 8 3)),
    .uart (.key newKey.keyId newKey.aesKey newKey.macKey))

def saltedNonce : Bytes 12 := gcmNonce (List.Vector.replicate 8 3) 0

/-- The sender takes the key and acknowledges it under the new key, which the
receiver cannot decrypt; its wait times out. -/
def timeoutRun : List LinkIn :=
  [.inl (.salted, .line (ascii "new key -f")),
    .inr (authAnswers, requestFrame),
    .inl takesNewKey,
    .inl (.salted, .line (ascii "ACK")),
    .inr (.bare, ackFrame newKey.aesKey saltedNonce),
    .inr (.bare, .timeout)]

def requestTrace : List LinkOut :=
  [.inl (.gcmCall sharedKey.aesKey firstNonce),
    .inl (.dataSent sharedKey.aesKey .encrypted firstNonce (ascii "new key -f")
      (ascii "new key -f") sharedKey.aesKey),
    .inr (.accepted sharedKey.aesKey .encrypted firstNonce
      ⟨ascii "new key -f", by decide⟩ sharedKey.aesKey (ascii "new key -f"))]

def timeoutTrace : List LinkOut :=
  [.inr (.tx (keyFrame newKey.keyId newKey.aesKey newKey.macKey)),
    .inl (.keyReceived newKey.keyId newKey.aesKey newKey.macKey),
    .inl (.saltDrawn (List.Vector.replicate 8 3)),
    .inl (.gcmCall newKey.aesKey saltedNonce),
    .inl (.dataSent newKey.aesKey .encrypted saltedNonce (ascii "ACK")
      (ascii "ACK") newKey.aesKey)]

/-- The receiver is idle again with its old key, the sender has the new one. -/
theorem timeout_leaves_keys_apart :
    openLink.Reach (fun t s i => KeyUpdateRules t s i ∧
        GcmIdeal Mbedtls.transparent t s i) bothKeyed
      (openLink.trace bothKeyed timeoutRun) (openLink.run bothKeyed timeoutRun) ∧
    openLink.trace bothKeyed timeoutRun =
      requestTrace ++ .inr (.keyIssued sharedKey newKey) :: timeoutTrace ∧
    receivedKeys timeoutTrace =
      [(newKey.keyId, newKey.aesKey, newKey.macKey)] ∧
    (openLink.run bothKeyed timeoutRun).2.state = .idle ∧
    (openLink.run bothKeyed timeoutRun).2.sKey = sharedKey ∧
    (openLink.run bothKeyed timeoutRun).1.installed =
      (newKey.keyId, newKey.aesKey, newKey.macKey) ∧
    (sharedKey.keyId, sharedKey.aesKey, sharedKey.macKey) ≠
      (newKey.keyId, newKey.aesKey, newKey.macKey) := by
  refine ⟨?_, by decide +kernel, by decide +kernel, by decide +kernel,
    by decide +kernel, by decide +kernel, by decide +kernel⟩
  apply Machine.reach_run
  decide +kernel

/-- An acknowledgement typed before the key arrives, under the old key. -/
def ackRun : List LinkIn :=
  [.inl (.salted, .line (ascii "new key -f")),
    .inl (.salted, .line (ascii "ACK")),
    .inr (authAnswers, requestFrame),
    .inr (.bare, ackFrame sharedKey.aesKey secondNonce),
    .inl takesNewKey]

def ackTrace : List LinkOut :=
  [.inr (.tx (keyFrame newKey.keyId newKey.aesKey newKey.macKey)),
    .inr (.accepted sharedKey.aesKey .encrypted secondNonce
      ⟨ascii "ACK", by decide⟩ sharedKey.aesKey (ascii "ACK")),
    .inr .ackReceived,
    .inl (.keyReceived newKey.keyId newKey.aesKey newKey.macKey),
    .inl (.saltDrawn (List.Vector.replicate 8 3))]

theorem trace_ackRun : openLink.trace bothKeyed ackRun =
    (openLink.trace bothKeyed (ackRun.take 2) ++
      [.inr (.accepted sharedKey.aesKey .encrypted firstNonce
        ⟨ascii "new key -f", by decide⟩ sharedKey.aesKey (ascii "new key -f"))]) ++
    .inr (.keyIssued sharedKey newKey) :: ackTrace := by
  decide +kernel

/-- Here the acknowledgement finishes the update. -/
theorem key_update_outcome_acked :
    (openLink.run bothKeyed ackRun).2.sKey.keyId =
        (openLink.run bothKeyed ackRun).1.sessionKeyId ∧
      (openLink.run bothKeyed ackRun).2.sKey.aesKey =
        (openLink.run bothKeyed ackRun).1.sessionKey := by
  have hreach : openLink.Reach KeyUpdateRules bothKeyed
      (openLink.trace bothKeyed ackRun) (openLink.run bothKeyed ackRun) := by
    apply Machine.reach_run
    decide +kernel
  have hnone : NoIssue ackTrace := by
    intro active k hmem
    simp [ackTrace] at hmem
  have hreceived : (receivedKeys ackTrace).getLast? =
      some (newKey.keyId, newKey.aesKey, newKey.macKey) := by
    decide +kernel
  apply (key_update_outcome hreach trace_ackRun hnone hreceived).1
  · simp [ackTrace]
  · simp [ackTrace]

end LifiAuth
