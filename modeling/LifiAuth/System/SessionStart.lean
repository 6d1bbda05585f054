import LifiAuth.System.AckRun
import LifiAuth.System.Delivery

/-!
# A session from the start

Sender and receiver wired to each other, the receiver with a key and the sender in any
state whatever.  Key `1` brings the key over, key `2` proves it to both, and from then on
everything that is typed arrives.
-/

namespace LifiAuth

open Support

section

variable {m : Mbedtls} (hse : HeatshrinkEncoder) (api : SstApi) {s : Wired} {k : SessionKey}
  {j : ℕ} {is : List WiredIn} {Salted : Bytes 8 → Prop}

/-- A look of the sender draws a salt of this kind if it brings a key. -/
def WiredIn.Salts (Salted : Bytes 8 → Prop) : WiredIn → Prop
  | .look env => ∃ salt, env.salt = some salt ∧ Salted salt
  | .line _ _ | .pass _ | .key _ _ | .timeout _ => True

/-- The sender has the key and a new salt, and its counter starts again. -/
structure Pico.Renewed (Salted : Bytes 8 → Prop) (k : SessionKey) (p : Pico) : Prop where
  holds : p.Holds k
  ctr : p.msgCounter = 0
  salt : Salted p.bootSalt

theorem renewed_handleKeyFrame {env : PicoEnv} (hsalt : (WiredIn.look env).Salts Salted)
    (p : Pico) : Pico.Renewed Salted k (handleKeyFrame m env k.keyId k.aesKey k.macKey p).1 := by
  obtain ⟨salt, hdrawn, hsalted⟩ := hsalt
  obtain ⟨hholds, -⟩ := holds_handleKeyFrame (m := m) env k p
  refine ⟨hholds, ?_, ?_⟩
  · simp only [handleKeyFrame, picoNonceOnKeyChange, picoNonceInit, hdrawn]
  · simp only [handleKeyFrame, picoNonceOnKeyChange, picoNonceInit, hdrawn]
    exact hsalted

/-- With nothing on the lines, looks change nothing. -/
theorem run_of_drained (h : s.Drained) (hopen : s.dash.fdOpen = true)
    (his : ∀ i ∈ is, i.Looks none) : (wired m hse api).run s is = s := by
  induction is with
  | nil => rfl
  | cons i is ih =>
      obtain ⟨hi, hrest⟩ := List.forall_mem_cons.mp his
      have hstep : (wiredStep m hse api s i).1 = s := by
        cases i with
        | look env => rw [h.onLines.look_nil m hse api env]
        | pass env =>
            obtain ⟨r, hstep⟩ := h.onLines.pass_nil m hse api hopen env
            rw [hstep]
        | line env text => exact hi.elim
        | key env pressed => exact hi.elim
        | timeout env => exact hi.elim
      rw [Machine.run_cons]
      exact (congrArg (fun s => (wired m hse api).run s is) hstep).trans (ih hrest)

/-- Five looks of the sender take the KEY frame off the line. -/
theorem run_of_key (h : OnLines s [.key k.keyId k.aesKey k.macKey] j [] 0)
    (hopen : s.dash.fdOpen = true) (his : ∀ i ∈ is, i.Looks none)
    (hsalts : ∀ i ∈ is, i.Salts Salted) (hlooks : 5 ≤ j + turns .sender is) :
    let s' := (wired m hse api).run s is
    s'.Drained ∧ s'.dash = s.dash ∧ s'.pico.Renewed Salted k := by
  induction is generalizing s j with
  | nil =>
      have hj : j ≤ 4 := h.toPico.le_depth
      have hlooks : 5 ≤ j := hlooks
      omega
  | cons i is ih =>
      obtain ⟨hi, hrest⟩ := List.forall_mem_cons.mp his
      obtain ⟨hsalt, hrestSalts⟩ := List.forall_mem_cons.mp hsalts
      rw [turns_cons] at hlooks
      cases i with
      | look env =>
          have hlooks : 5 ≤ j + (turns .sender is + 1) := hlooks
          obtain ⟨c, line, hlook⟩ := h.look_cons m hse api env
          rcases hlook with ⟨-, hstep, hnext⟩ | ⟨-, hstep, hnext⟩
          · have hmoved : (wired m hse api).step s (.look env) = _ := hstep
            rw [Machine.run_cons, hmoved]
            exact ih hnext hopen hrest hrestSalts (by omega)
          · obtain ⟨-, hquiet⟩ := holds_handleKeyFrame (m := m) env k s.pico
            have hdrained := (hnext.unsent hquiet).drained
            have hmoved : (wired m hse api).step s (.look env) = _ := hstep
            rw [Machine.run_cons, hmoved]
            have hidle : (wired m hse api).run _ is = _ :=
              run_of_drained hse api hdrained hopen hrest
            refine hidle.symm ▸ ?_
            exact ⟨hdrained, rfl, renewed_handleKeyFrame hsalt s.pico⟩
      | pass env =>
          obtain ⟨r, hstep⟩ := h.pass_nil m hse api hopen env
          have hmoved : (wired m hse api).step s (.pass env) = _ := hstep
          rw [Machine.run_cons, hmoved]
          exact ih h hopen hrest hrestSalts hlooks
      | line env text => exact hi.elim
      | key env pressed => exact hi.elim
      | timeout env => exact hi.elim

/-- A renewed sender and the receiver whose key it took are in session. -/
theorem Pico.Renewed.sessionOpen {p : Pico} {d : Dash} {count : ℕ}
    (h : p.Renewed
      (fun salt => ∀ ctr : UInt32, ctr.toNat < count → d.rwin.seen (gcmNonce salt ctr) = false)
      d.sKey)
    (hvalid : d.keyValid = true) (husable : isKeyZeroed d.sKey.aesKey = false)
    (hcount : count ≤ 2 ^ 32) : SessionOpen p d count where
  usable := by
    rw [h.holds.key]
    exact husable
  same := h.holds.key.symm
  valid := hvalid
  counter := by
    rw [h.ctr]
    exact (Nat.zero_add count).trans_le hcount
  fresh := by
    intro ctr _ hlt
    rw [h.ctr] at hlt
    exact h.salt ctr (hlt.trans_eq (Nat.zero_add count))

theorem keepsSession_of_looks {i : WiredIn} (h : i.Looks none) : i.KeepsSession hse := by
  cases i with
  | look env => trivial
  | pass env => exact h.1
  | line env text => exact h.elim
  | key env pressed => exact h.elim
  | timeout env => exact h.elim

theorem typed_of_looks (his : ∀ i ∈ is, i.Looks none) :
    is.filterMap (WiredIn.typed hse) = [] := by
  rw [List.filterMap_eq_nil_iff]
  intro i hi
  have hlooks := his i hi
  cases i with
  | look env => rfl
  | pass env => rfl
  | line env text => exact hlooks.elim
  | key env pressed => exact hlooks.elim
  | timeout env => exact hlooks.elim

/-- Keys `1` and `2` at a receiver with a key make a session with a sender in any state:
once the sender has taken the key, with a salt that is new to the receiver, and both have
had their turns of the handshake, both are authenticated, and what is typed from then on is
accepted once and in order. -/
theorem session_from_start (hm : m.Lawful) (htotal : m.Total) (hapi : api.Answers m)
    (hs : s.Drained) (hopen : s.dash.fdOpen = true) (hvalid : s.dash.keyValid = true)
    (husable : isKeyZeroed s.dash.sKey.aesKey = false) (hwaiting : s.dash.state ≠ .waitingForAck)
    {count : ℕ} (hcount : count ≤ 2 ^ 32) {env env' : DashEnv} (hwrites : env.Writes)
    (hwrites' : env'.Writes) {first second later : List WiredIn}
    (hfirst : ∀ i ∈ first, i.Looks none) (hlooks : 5 ≤ turns .sender first)
    (hsalts : ∀ i ∈ first, i.Salts fun salt =>
      ∀ ctr : UInt32, ctr.toNat < count → s.dash.rwin.seen (gcmNonce salt ctr) = false)
    (hsecond : ∀ i ∈ second, i.Looks none)
    (hturns : (knockedTurns 0).Sublist (second.map WiredIn.side))
    (hlater : ∀ i ∈ later, i.KeepsSession hse)
    (hfew : (later.filterMap (WiredIn.typed hse)).length ≤ count) :
    let s₁ := (wired m hse api).run s (.key env .one :: first)
    let knock := WiredIn.key env' .two :: second
    let accepted := ((wired m hse api).trace s₁ (knock ++ later)).filterMap WiredOut.delivered
    Authenticated s.dash.sKey ((wired m hse api).trace s₁ knock)
        ((wired m hse api).run s₁ knock) ∧
      accepted <+: later.filterMap (WiredIn.typed hse) ∧
      (((wired m hse api).run s₁ (knock ++ later)).toDash = [] →
        accepted = later.filterMap (WiredIn.typed hse)) := by
  intro s₁ knock accepted
  have hpressed : wiredStep m hse api s (.key env .one) =
      s.fromDash (s.dash, sendActiveKey env s.dash) := congrArg s.fromDash (if_pos hvalid)
  have hsent : OnLines (wiredStep m hse api s (.key env .one)).1
      [.key s.dash.sKey.keyId s.dash.sKey.aesKey s.dash.sKey.macKey] 0 [] 0 := by
    rw [hpressed]
    exact hs.onLines.written (bytes_sendActiveKey hwrites hopen)
  have hdash : (wiredStep m hse api s (.key env .one)).1.dash = s.dash := by
    rw [hpressed]
    rfl
  have hopen₀ : (wiredStep m hse api s (.key env .one)).1.dash.fdOpen = true := by
    rw [hdash]
    exact hopen
  obtain ⟨hdrained, hkept, hrenewed⟩ := run_of_key (m := m) hse api hsent hopen₀ hfirst hsalts
    (hlooks.trans_eq (Nat.zero_add _).symm)
  have hdash₁ : s₁.dash = s.dash := hkept.trans hdash
  rw [← hdash₁] at hopen hvalid husable hwaiting
  have hholds : s₁.pico.Holds s₁.dash.sKey := by
    rw [hdash₁]
    exact hrenewed.holds
  have hauth : Authenticated s₁.dash.sKey ((wired m hse api).trace s₁ knock)
      ((wired m hse api).run s₁ knock) :=
    handshake_completes hse api hm htotal hapi hdrained hopen hvalid hholds hwrites' hsecond
      hturns
  have hsession : SessionOpen s₁.pico s₁.dash count := by
    refine Pico.Renewed.sessionOpen ?_ hvalid husable hcount
    rw [hdash₁]
    exact hrenewed
  have htyped : (knock ++ later).filterMap (WiredIn.typed hse) =
      later.filterMap (WiredIn.typed hse) := by
    rw [List.filterMap_append, List.filterMap_cons_none rfl, typed_of_looks hse hsecond,
      List.nil_append]
  have hall : ∀ i ∈ knock ++ later, i.KeepsSession hse := by
    refine List.forall_mem_append.mpr ⟨List.forall_mem_cons.mpr ⟨⟨hwrites', Or.inl rfl⟩, ?_⟩,
      hlater⟩
    exact fun i hi => keepsSession_of_looks hse (hsecond i hi)
  have hdelivered := messages_delivered hse api hm htotal hdrained hsession hwaiting hall
    (by rwa [htyped])
  rw [htyped] at hdelivered
  rw [hdash₁] at hauth
  exact ⟨hauth, hdelivered⟩

end

/-- A sender that has never had a key. -/
def blankStart : Wired :=
  { wiredStart with pico := { wiredStart.pico with
      sessionKey := Bytes.zero 16
      sessionKeyId := Bytes.zero 8
      sessionMacKey := Bytes.zero 32 } }

/-- The sender looks `n` times and draws a salt of fives when a key comes. -/
def saltedLooks (n : ℕ) : List WiredIn :=
  List.replicate n (.look (.withSalt (some (List.Vector.replicate 8 5))))

theorem session_from_start_blank :
    let s₁ := openWire.run blankStart (.key DashEnv.bare .one :: saltedLooks 5)
    Authenticated sharedKey
        (openWire.trace s₁ (.key DashEnv.bare .two :: bothLook 15))
        (openWire.run s₁ (.key DashEnv.bare .two :: bothLook 15)) ∧
      (openWire.trace s₁ ((.key DashEnv.bare .two :: bothLook 15) ++
          [.line .salted (ascii "hello")])).filterMap WiredOut.delivered <+:
        [(.encrypted, ascii "hello")] := by
  have hdrained : blankStart.Drained := ⟨rfl, rfl, Nat.zero_le 3, Nat.zero_le 3⟩
  have hfirst : ∀ i ∈ saltedLooks 5, i.Looks none := by
    intro i hi
    rw [List.eq_of_mem_replicate hi]
    trivial
  have hfresh : ∀ n : Fin 1, blankStart.dash.rwin.seen
      (gcmNonce (List.Vector.replicate 8 5) (UInt32.ofNat n)) = false := by decide +kernel
  have hsalts : ∀ i ∈ saltedLooks 5, i.Salts fun salt => ∀ ctr : UInt32, ctr.toNat < 1 →
      blankStart.dash.rwin.seen (gcmNonce salt ctr) = false := by
    intro i hi
    rw [List.eq_of_mem_replicate hi]
    refine ⟨_, rfl, ?_⟩
    intro ctr hlt
    have hctr := hfresh ⟨ctr.toNat, hlt⟩
    rwa [UInt32.ofNat_toNat] at hctr
  have hlater : ∀ i ∈ [WiredIn.line .salted (ascii "hello")],
      i.KeepsSession .idle :=
    List.forall_mem_singleton.mpr ⟨by decide, by decide, by decide⟩
  obtain ⟨hauth, haccepted, -⟩ := session_from_start .idle (SstApi.reference .transparent)
    Mbedtls.lawful_transparent Mbedtls.total_transparent (SstApi.answers_reference _) hdrained
    rfl rfl (by decide +kernel) ReceiverState.noConfusion (by decide) writes_bare writes_bare
    hfirst (by decide) hsalts (looks_bothLook (by simp) 15) (by decide) hlater (by decide)
  exact ⟨hauth, haccepted⟩

end LifiAuth
