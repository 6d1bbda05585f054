import LifiAuth.System.MacSplit
import LifiAuth.System.SessionFidelity
import LifiAuth.System.UpdateRun

/-!
# A key update that is acknowledged in time

An `ACK` that the sender sends before it has taken the KEY frame is still under the old
key; the receiver accepts it and changes over as well.  It takes the new id and cipher key
and keeps its old MAC key, while the sender installs all three: from then on messages pass
and handshakes do not.
-/

namespace LifiAuth

open Support

section

variable {m : Mbedtls} (hse : HeatshrinkEncoder) (api : SstApi) {s : Wired}
  {k k' : SessionKey} {nonce : Bytes 12} {j j' : ℕ} {is : List WiredIn}

/-! ## Up to the `ACK` -/

theorem SessionOpen.inSession {p : Pico} {d : Dash} {count : ℕ}
    (h : SessionOpen p d (count + 1)) : InSession p d where
  usable := h.usable
  same := h.same
  valid := h.valid
  fresh := h.fresh _ le_rfl (by omega)

/-- The nonce after the next one is another, and new to the receiver as well. -/
theorem SessionOpen.inSession_next {p : Pico} {d : Dash} (h : SessionOpen p d 2) :
    InSession (picoNonceGenerate p).2 d ∧
      (picoNonceGenerate (picoNonceGenerate p).2).1 ≠ (picoNonceGenerate p).1 := by
  have hcounter := h.counter
  have hctr : (p.msgCounter + 1).toNat = (p.msgCounter.toNat + 1) % 2 ^ 32 :=
    UInt32.toNat_add _ _
  refine ⟨⟨h.usable, h.same, h.valid, h.fresh (p.msgCounter + 1) (by omega) (by omega)⟩, ?_⟩
  intro heq
  have hsame : p.msgCounter + 1 = p.msgCounter := (gcmNonce_inj heq).2
  rw [hsame] at hctr
  omega

/-- With the KEY frame not yet taken, the session under the old key goes on. -/
theorem Issued.run (h : Issued k k' j s) (hsession : InSession s.pico s.dash)
    (his : ∀ i ∈ is, i.Fetches k') (hlooks : j + turns .sender is < 5) :
    let s' := (wired m hse api).run s is
    (∃ j < 5, Issued k k' j s') ∧ InSession s'.pico s'.dash := by
  induction is generalizing s j with
  | nil => exact ⟨⟨j, hlooks, h⟩, hsession⟩
  | cons i is ih =>
      obtain ⟨hi, hrest⟩ := List.forall_mem_cons.mp his
      rw [turns_cons] at hlooks
      cases i with
      | look env =>
          have hlooks : j + (turns .sender is + 1) < 5 := hlooks
          rcases h.look (m := m) hse api env with ⟨-, hnext, hpico, hdash⟩ | ⟨rfl, -⟩
          · have hkept : InSession (wiredStep m hse api s (.look env)).1.pico
                (wiredStep m hse api s (.look env)).1.dash := by
              rw [hpico, hdash]
              exact hsession
            exact ih hnext hkept hrest (by omega)
          · omega
      | pass env =>
          obtain ⟨r, hstep⟩ := h.lines.pass_nil m hse api h.awaits.fdOpen env
          have hnext : (wired m hse api).step s (.pass env) = (s, [.dashRead r]) := hstep
          rw [Machine.run_cons, hnext]
          exact ih h hsession hrest hlooks
      | line env text => exact hi.elim
      | key env pressed => exact hi.elim
      | timeout env => exact hi.elim

/-- The receiver takes the request and answers it before the sender has taken the answer. -/
theorem Requested.run (h : Requested m k nonce j s) (hsession : InSession s.pico s.dash)
    (hnew : (picoNonceGenerate s.pico).1 ≠ nonce) (his : ∀ i ∈ is, i.Fetches k')
    (hpasses : 5 ≤ j + turns .receiver is) (hlooks : turns .sender is < 5) :
    let s' := (wired m hse api).run s is
    (∃ j < 5, Issued k k' j s') ∧ InSession s'.pico s'.dash := by
  induction is generalizing s j with
  | nil =>
      obtain ⟨ctext, tag, decrypted, hlines, -⟩ := h.request
      have hj : j ≤ 4 := hlines.toDash.le_depth
      have hpasses : 5 ≤ j := hpasses
      omega
  | cons i is ih =>
      obtain ⟨hi, hrest⟩ := List.forall_mem_cons.mp his
      rw [turns_cons] at hpasses hlooks
      cases i with
      | look env =>
          have hlooks : turns .sender is + 1 < 5 := hlooks
          obtain ⟨ctext, tag, decrypted, hlines, -⟩ := h.request
          have hnext : (wired m hse api).step s (.look env) = (s, [.picoRead .quiet]) :=
            hlines.look_nil m hse api env
          rw [Machine.run_cons, hnext]
          exact ih h hsession hnew hrest hpasses (by omega)
      | pass env =>
          have hpasses : 5 ≤ j + (turns .receiver is + 1) := hpasses
          obtain ⟨hwrites, keys, hkeys⟩ := hi
          obtain ⟨hpico, hstep⟩ := h.pass hse api hwrites hkeys
          rcases hstep with ⟨-, hnext, hdash⟩ | ⟨rfl, hnext, hrwin⟩
          · have hkept : InSession (wiredStep m hse api s (.pass env)).1.pico
                (wiredStep m hse api s (.pass env)).1.dash := by
              rw [hpico, hdash]
              exact hsession
            rw [← hpico] at hnew
            exact ih hnext hkept hnew hrest (by omega) hlooks
          · have hkept : InSession (wiredStep m hse api s (.pass env)).1.pico
                (wiredStep m hse api s (.pass env)).1.dash := by
              rw [hpico]
              refine ⟨hsession.usable, ?_, hnext.awaits.valid, ?_⟩
              · rw [hnext.awaits.key, ← h.key]
                exact hsession.same
              · rw [hrwin, ← Bool.not_eq_true]
                intro hseen
                rcases ReplayWindow.eq_or_seen_of_seen_add hseen with heq | hold
                · exact hnew heq
                · exact Bool.false_ne_true (hsession.fresh.symm.trans hold)
            exact hnext.run hse api hkept hrest (by rwa [Nat.zero_add])
      | line env text => exact hi.elim
      | key env pressed => exact hi.elim
      | timeout env => exact hi.elim

/-! ## The KEY frame and the `ACK` cross -/

/-- The sender's side: the KEY frame is coming, or it has been installed. -/
inductive Installing (k' : SessionKey) : ℕ → Wired → Prop
  | coming {j : ℕ} {s : Wired}
      (line : picoParser.Holds s.challengeState s.toPico [.key k'.keyId k'.aesKey k'.macKey] j) :
      Installing k' j s
  | installed {s : Wired} (line : picoParser.Holds s.challengeState s.toPico [] 0)
      (holds : s.pico.Holds k') : Installing k' 5 s

/-- The receiver's side: the `ACK` is coming, or it has been accepted. -/
inductive Acking (m : Mbedtls) (k k' : SessionKey) : ℕ → Wired → Prop
  | coming {j : ℕ} {s : Wired} {nonce : Bytes 12} {ctext : Ctext} {tag : Bytes 16}
      {decrypted : Bytes ctext.1.length} (awaits : Awaits k k' s.dash)
      (line : dashParser.Holds s.uartState s.toDash [.data .encrypted nonce ctext tag] j)
      (fresh : s.dash.rwin.seen nonce = false)
      (opens : m.sstDecryptGcm k.aesKey nonce (Bytes.ofList ctext.1) tag = some decrypted)
      (text : decrypted.toList = ascii "ACK") : Acking m k k' j s
  | acked {s : Wired} (line : dashParser.Holds s.uartState s.toDash [] 0)
      (fdOpen : s.dash.fdOpen = true) (idle : s.dash.state = .idle)
      (key : s.dash.sKey = { k' with macKey := k.macKey }) : Acking m k k' 5 s

/-- `ACK` typed before the sender has taken the KEY frame is still under the old key. -/
theorem Issued.typed_ack (hm : m.Lawful) (htotal : m.Total) (h : Issued k k' j s)
    (hsession : InSession s.pico s.dash) (env : PicoEnv) :
    let s' := (wiredStep m hse api s (.line env (ascii "ACK"))).1
    Installing k' j s' ∧ Acking m k k' 0 s' := by
  obtain ⟨ctext, tag, decrypted, r, hstep, hbytes, hdec, htext⟩ :=
    typed_in_session hse api hm htotal hsession env (ascii "ACK") (by decide) (by decide)
  have hafter : OnLines (s.fromPico ((picoNonceGenerate s.pico).2, r)).1 _ j
      [.data .encrypted (picoNonceGenerate s.pico).1 ctext tag] 0 := h.lines.sent hbytes
  rw [h.awaits.key] at hdec
  rw [hstep]
  exact ⟨.coming hafter.toPico, .coming h.awaits hafter.toDash hsession.fresh hdec htext⟩

theorem Installing.le (h : Installing k' j s) : j ≤ 5 := by
  cases h with
  | coming line => exact Nat.le_succ_of_le line.le_depth
  | installed line holds => exact le_rfl

theorem Acking.le (h : Acking m k k' j s) : j ≤ 5 := by
  cases h with
  | coming awaits line fresh opens text => exact Nat.le_succ_of_le line.le_depth
  | acked line fdOpen idle key => exact le_rfl

theorem Installing.onLine (h : Installing k' j s) :
    ∃ fs j, picoParser.Holds s.challengeState s.toPico fs j := by
  cases h with
  | coming line => exact ⟨_, _, line⟩
  | installed line holds => exact ⟨_, _, line⟩

theorem Acking.onLine (h : Acking m k k' j s) :
    ∃ gs j, dashParser.Holds s.uartState s.toDash gs j := by
  cases h with
  | coming awaits line fresh opens text => exact ⟨_, _, line⟩
  | acked line fdOpen idle key => exact ⟨_, _, line⟩

/-- Only the sender and the serial line matter. -/
theorem Installing.of_eq {s' : Wired} (h : Installing k' j s) (hpico : s'.pico = s.pico)
    (hstate : s'.challengeState = s.challengeState) (hline : s'.toPico = s.toPico) :
    Installing k' j s' := by
  cases h with
  | coming line =>
      rw [← hstate, ← hline] at line
      exact .coming line
  | installed line holds =>
      rw [← hstate, ← hline] at line
      rw [← hpico] at holds
      exact .installed line holds

/-- Only the receiver and the light link matter. -/
theorem Acking.of_eq {s' : Wired} (h : Acking m k k' j s) (hdash : s'.dash = s.dash)
    (hstate : s'.uartState = s.uartState) (hline : s'.toDash = s.toDash) :
    Acking m k k' j s' := by
  cases h with
  | coming awaits line fresh opens text =>
      rw [← hstate, ← hline] at line
      rw [← hdash] at awaits fresh
      exact .coming awaits line fresh opens text
  | acked line fdOpen idle key =>
      rw [← hstate, ← hline] at line
      rw [← hdash] at fdOpen idle key
      exact .acked line fdOpen idle key

/-- The sender takes a byte of the KEY frame, or installs the key; the receiver does not
notice. -/
theorem Installing.look (h : Installing k' j s) (hack : Acking m k k' j' s) (env : PicoEnv) :
    let s' := (wiredStep m hse api s (.look env)).1
    Installing k' (min 5 (j + 1)) s' ∧ Acking m k k' j' s' := by
  obtain ⟨gs, i, hdash⟩ := hack.onLine
  cases h with
  | coming line =>
      have hlines : OnLines s [.key k'.keyId k'.aesKey k'.macKey] j gs i := ⟨line, hdash⟩
      obtain ⟨c, rest, hlook⟩ := hlines.look_cons m hse api env
      rcases hlook with ⟨hlt, hstep, hnext⟩ | ⟨rfl, hstep, hnext⟩
      · rw [hstep, Nat.min_eq_right (by omega)]
        exact ⟨.coming hnext.toPico, hack.of_eq rfl rfl rfl⟩
      · obtain ⟨hholds, hquiet⟩ := holds_handleKeyFrame (m := m) env k' s.pico
        have hline : s.toDash ++ (handleKeyFrame m env k'.keyId k'.aesKey k'.macKey
            s.pico).2.flatMap PicoOut.lifiBytes = s.toDash := by
          rw [hquiet, List.append_nil]
        rw [hstep]
        exact ⟨.installed (hnext.unsent hquiet).toPico hholds, hack.of_eq rfl rfl hline⟩
  | installed line holds =>
      have hlines : OnLines s [] 0 gs i := ⟨line, hdash⟩
      rw [hlines.look_nil m hse api env]
      exact ⟨.installed line holds, hack⟩

/-- `ACK` decrypted by a receiver that waits for it. -/
theorem handleMessage_ack {d : Dash} (h : d.state = .waitingForAck) (env : DashEnv) :
    handleMessage api env (ascii "ACK") d = (handleAck d, [.ackReceived]) := by
  have htext : cstr (ascii "ACK") = ascii "ACK" := by decide
  have hothers : ascii "ACK" ≠ ascii "I have the key" ∧ ascii "ACK" ≠ ascii "new key -f" ∧
      ascii "ACK" ≠ ascii "new key" := by decide
  simp only [handleMessage, htext]
  rw [if_neg hothers.1, if_neg hothers.2.1, if_neg hothers.2.2, if_pos ⟨h, trivial⟩]

/-- The receiver takes a byte of the `ACK`, or accepts it; the sender does not notice. -/
theorem Acking.pass (hack : Acking m k k' j' s) (h : Installing k' j s) (env : DashEnv) :
    let s' := (wiredStep m hse api s (.pass env)).1
    Installing k' j s' ∧ Acking m k k' (min 5 (j' + 1)) s' := by
  obtain ⟨fs, i, hpico⟩ := h.onLine
  cases hack with
  | @coming _ _ nonce ctext tag decrypted awaits line fresh opens text =>
      have hlines : OnLines s fs i [.data .encrypted nonce ctext tag] j' := ⟨hpico, line⟩
      obtain ⟨c, rest, hlook⟩ := hlines.pass_cons m hse api awaits.fdOpen env
      rcases hlook with ⟨hlt, ⟨r, hstep⟩, hnext⟩ | ⟨rfl, hstep, hnext⟩
      · rw [hstep, Nat.min_eq_right (by omega)]
        exact ⟨h.of_eq rfl rfl rfl, .coming awaits hnext.toDash fresh opens text⟩
      · have hopens : m.sstDecryptGcm s.dash.counted.sKey.aesKey nonce
            (Bytes.ofList ctext.1) tag = some decrypted := awaits.key ▸ opens
        have hread := handleData_accepts api (d := s.dash.counted) (t := .encrypted)
          awaits.valid fresh hopens env
        have hwaiting : (s.dash.counted.record nonce).state = .waitingForAck := awaits.waiting
        have hhandled : handleFrame m api env
            (LifiFrame.data .encrypted nonce ctext tag).received s.dash.counted = _ := hread
        rw [text] at hhandled
        simp only [handleDecrypted, handleMessage_ack api hwaiting] at hhandled
        rw [hstep, hhandled]
        refine ⟨h.of_eq rfl rfl (List.append_nil _), .acked hnext.toDash awaits.fdOpen rfl ?_⟩
        exact awaits.acked
  | acked line fdOpen idle key =>
      have hlines : OnLines s fs i [] 0 := ⟨hpico, line⟩
      obtain ⟨r, hstep⟩ := hlines.pass_nil m hse api fdOpen env
      rw [hstep]
      exact ⟨h, .acked line fdOpen idle key⟩

/-- Each side moves on by its own looks. -/
theorem crossing_run (h : Installing k' j s) (hack : Acking m k k' j' s)
    (his : ∀ i ∈ is, i.Looks none) :
    let s' := (wired m hse api).run s is
    Installing k' (min 5 (j + turns .sender is)) s' ∧
      Acking m k k' (min 5 (j' + turns .receiver is)) s' := by
  induction is generalizing s j j' with
  | nil =>
      have hturns (side : Side) : turns side [] = 0 := rfl
      rw [hturns, hturns, Nat.add_zero, Nat.add_zero, Nat.min_eq_right h.le,
        Nat.min_eq_right hack.le]
      exact ⟨h, hack⟩
  | cons i is ih =>
      obtain ⟨hi, hrest⟩ := List.forall_mem_cons.mp his
      rw [turns_cons, turns_cons]
      cases i with
      | look env =>
          obtain ⟨hnext, hack⟩ := h.look hse api hack env
          have hmoved : min 5 (j + (turns .sender is + 1)) =
              min 5 (min 5 (j + 1) + turns .sender is) := by omega
          have hend := ih hnext hack hrest
          rw [← hmoved] at hend
          exact hend
      | pass env =>
          obtain ⟨hnext, hack⟩ := hack.pass hse api h env
          have hmoved : min 5 (j' + (turns .receiver is + 1)) =
              min 5 (min 5 (j' + 1) + turns .receiver is) := by omega
          have hend := ih hnext hack hrest
          rw [← hmoved] at hend
          exact hend
      | line env text => exact hi.elim
      | key env pressed => exact hi.elim
      | timeout env => exact hi.elim

/-- Once both frames have been taken, the keys differ in the MAC key, and the lines are
empty. -/
theorem split_of_crossed (h : Installing k' 5 s) (hack : Acking m k k' 5 s) :
    s.pico.Holds k' ∧ s.dash.sKey = { k' with macKey := k.macKey } ∧
      (m.TagsApart k.macKey k'.macKey → MacSplit m s) := by
  cases h with
  | coming line => exact absurd line.le_depth (by decide)
  | installed toPico holds =>
      cases hack with
      | coming awaits line fresh opens text => exact absurd line.le_depth (by decide)
      | acked toDash fdOpen idle key =>
          refine ⟨holds, key, ?_⟩
          intro hapart
          refine ⟨?_, ?_, ?_, ⟨[], 0, toPico, List.forall_mem_nil _⟩, [], 0, toDash,
            List.forall_mem_nil _⟩
          · rw [key, holds.key]
            rfl
          · rw [key, holds.macKey]
            exact hapart
          · rw [idle]
            exact ReceiverState.noConfusion

/-- `new key -f` in session, and an `ACK` typed before the sender has taken the KEY frame:
once each side has had its looks, both have the new id and the new cipher key, but the
receiver has kept its MAC key.  Where their tags differ, then in whatever follows, short of
a request for another key, the two stay able to decrypt each other and no message of a
handshake is ever answered. -/
theorem early_ack_splits_macKey (hm : m.Lawful) (htotal : m.Total) (hapi : api.Lawful m)
    (hs : s.Drained) (hopen : s.dash.fdOpen = true) (hsession : SessionOpen s.pico s.dash 2)
    (env env' : PicoEnv) {first second : List WiredIn}
    (hfirst : ∀ i ∈ first, i.Fetches k') (hpasses : 5 ≤ turns .receiver first)
    (hlooks : turns .sender first < 5) (hsecond : ∀ i ∈ second, i.Looks none)
    (hboth : ∀ side, 5 ≤ turns side second) :
    let s₁ := (wired m hse api).run s
      (.line env (ascii "new key -f") :: first ++ .line env' (ascii "ACK") :: second)
    s₁.pico.Holds k' ∧ s₁.dash.sKey = { k' with macKey := s.dash.sKey.macKey } ∧
      (m.TagsApart s.dash.sKey.macKey k'.macKey →
        ∀ later : List WiredIn, (∀ i ∈ later, i.Tries hse) →
          ((wired m hse api).run s₁ later).dash.sKey.aesKey =
              ((wired m hse api).run s₁ later).pico.sessionKey ∧
            ∀ o ∈ (wired m hse api).trace s₁ later, o.Unanswered) := by
  intro s₁
  obtain ⟨hnext, hnew⟩ := hsession.inSession_next
  obtain ⟨hrequested, hpico, hdash⟩ :=
    requested_newKeyForced hse api hm htotal hs hopen hsession.inSession env
  rw [← hpico] at hnew
  rw [← hpico, ← hdash] at hnext
  obtain ⟨⟨j, hj, hissued⟩, hstill⟩ := hrequested.run hse api hnext hnew hfirst
    (by rwa [Nat.zero_add]) hlooks
  obtain ⟨hinstalling, hacking⟩ := hissued.typed_ack hse api hm htotal hstill env'
  obtain ⟨hinstalled, hacked⟩ := crossing_run hse api hinstalling hacking hsecond
  have hrun : s₁ = (wired m hse api).run
      (wiredStep m hse api ((wired m hse api).run
        (wiredStep m hse api s (.line env (ascii "new key -f"))).1 first)
        (.line env' (ascii "ACK"))).1 second := Machine.run_append _ _ _
  rw [← hrun, Nat.min_eq_left (Nat.le_add_left_of_le (hboth .sender))] at hinstalled
  rw [← hrun, Nat.min_eq_left (Nat.le_add_left_of_le (hboth .receiver))] at hacked
  obtain ⟨hholds, hkey, hsplit⟩ := split_of_crossed hinstalled hacked
  refine ⟨hholds, hkey, ?_⟩
  intro hapart later hlater
  obtain ⟨hend, hunanswered⟩ := (hsplit hapart).run hse api hm hapi hlater
  exact ⟨hend.same, hunanswered⟩

end

/-- Key `2` is pressed twice and both look at their lines. -/
def twoKnocks : List WiredIn :=
  .key DashEnv.bare .two :: bothLook 5 ++ .key DashEnv.bare .two :: bothLook 10

theorem early_ack_splits_macKey_twoKnocks :
    let s₁ := openWire.run wiredStart (.line .salted (ascii "new key -f") ::
      List.replicate 5 (.pass answering) ++ .line .salted (ascii "ACK") :: bothLook 5)
    s₁.pico.Holds otherKey ∧ s₁.dash.sKey = { otherKey with macKey := sharedKey.macKey } ∧
      (openWire.run s₁ twoKnocks).dash.sKey.aesKey =
        (openWire.run s₁ twoKnocks).pico.sessionKey ∧
      ∀ o ∈ openWire.trace s₁ twoKnocks, o.Unanswered := by
  have hfirst : ∀ i ∈ List.replicate 5 (WiredIn.pass answering), i.Fetches otherKey := by
    intro i hi
    rw [List.eq_of_mem_replicate hi]
    exact ⟨writes_bare, [], rfl⟩
  have hlooks (n : ℕ) : ∀ i ∈ bothLook n, WiredIn.Tries .idle i := by
    intro i hi
    obtain ⟨l, hl, hi⟩ := List.mem_flatten.mp hi
    rw [List.eq_of_mem_replicate hl] at hi
    rcases List.mem_pair.mp hi with rfl | rfl
    · trivial
    · exact writes_bare
  have hlater : ∀ i ∈ twoKnocks, WiredIn.Tries .idle i := by
    refine List.forall_mem_append.mpr ⟨?_, ?_⟩
    · exact List.forall_mem_cons.mpr ⟨⟨writes_bare, rfl⟩, hlooks 5⟩
    · exact List.forall_mem_cons.mpr ⟨⟨writes_bare, rfl⟩, hlooks 10⟩
  have hboth : ∀ side, 5 ≤ turns side (bothLook 5) := by
    rintro (_ | _)
    · decide
    · decide
  obtain ⟨hholds, hkey, hlasting⟩ := early_ack_splits_macKey .idle (SstApi.reference _)
    Mbedtls.lawful_transparent Mbedtls.total_transparent (SstApi.lawful_reference _)
    drained_wiredStart rfl sessionOpen_bothKeyed .salted .salted hfirst
    (by decide) (by decide) (looks_bothLook (by simp) 5) hboth
  exact ⟨hholds, hkey, hlasting (Mbedtls.tagsApart_transparent (by decide)) _ hlater⟩

end LifiAuth
