import LifiAuth.Pico.Handlers

/-!
# No AES-GCM nonce is used twice

A nonce is a salt and a counter.  Salts do not repeat, the counter grows within one
salt, and when it wraps the firmware asks for a reboot, so the nonces of a whole
run are distinct whatever happens to the key.
-/

namespace LifiAuth

open Support

variable (m : Mbedtls) (hse : HeatshrinkEncoder)

/-! ## What a step does to the generator -/

/-- The salts drawn in a trace. -/
def saltsDrawn (t : List PicoOut) : List (Bytes 8) :=
  t.filterMap fun
    | .saltDrawn salt => some salt
    | _ => none

/-- The keys and nonces of the calls of `sst_encrypt_gcm` in a trace. -/
def gcmCalls (t : List PicoOut) : List (Bytes 16 × Bytes 12) :=
  t.filterMap fun
    | .gcmCall key nonce => some (key, nonce)
    | _ => none

theorem saltsDrawn_append (t u : List PicoOut) :
    saltsDrawn (t ++ u) = saltsDrawn t ++ saltsDrawn u :=
  List.filterMap_append

theorem gcmCalls_append (t u : List PicoOut) :
    gcmCalls (t ++ u) = gcmCalls t ++ gcmCalls u :=
  List.filterMap_append

/-- The four things that can happen to salt and counter. -/
inductive NonceEffect (p : Pico) (r : Pico × List PicoOut) : Prop where
  /-- Nothing; a reboot may have been asked for. -/
  | none (salt : r.1.bootSalt = p.bootSalt) (ctr : r.1.msgCounter = p.msgCounter)
      (pending : p.rebootPending = true → r.1.rebootPending = true)
      (salts : saltsDrawn r.2 = []) (calls : gcmCalls r.2 = [])
  /-- A new salt. -/
  | renewed (ctr : r.1.msgCounter = 0) (salts : saltsDrawn r.2 = [r.1.bootSalt])
      (calls : gcmCalls r.2 = [])
  /-- No randomness. -/
  | failed (pending : r.1.rebootPending = true) (salts : saltsDrawn r.2 = [])
      (calls : gcmCalls r.2 = [])
  /-- One encryption. -/
  | used (key : Bytes 16) (salt : r.1.bootSalt = p.bootSalt)
      (ctr : r.1.msgCounter = p.msgCounter + 1)
      (pending : r.1.rebootPending = (p.rebootPending || p.msgCounter + 1 == 0))
      (salts : saltsDrawn r.2 = [])
      (calls : gcmCalls r.2 = [(key, gcmNonce p.bootSalt p.msgCounter)])

/-- A handler that leaves salt and counter alone. -/
theorem nonceEffect_of_eq {p p' : Pico} (hsalt : p'.bootSalt = p.bootSalt)
    (hctr : p'.msgCounter = p.msgCounter)
    (hpending : p'.rebootPending = p.rebootPending) :
    NonceEffect p (p', []) :=
  .none hsalt hctr (fun h => hpending.trans h) rfl rfl

theorem nonceEffect_picoNonceInit (env : PicoEnv) (p p' : Pico) :
    NonceEffect p (picoNonceInit env p') := by
  simp only [picoNonceInit]
  split
  · exact .renewed rfl rfl rfl
  · exact .failed rfl rfl rfl

theorem nonceEffect_handleHs1 (env : PicoEnv) (hs1 : Bytes 72) (p : Pico) :
    NonceEffect p (handleHs1 m env hs1 p) := by
  rcases handleHs1_cases m env hs1 p with hdrop | ⟨_, _, -, -, hanswer⟩
  · rw [hdrop]
    exact nonceEffect_of_eq rfl rfl rfl
  · rw [hanswer]
    exact .none rfl rfl id rfl rfl

theorem nonceEffect_handleHs3 (hs3 : Bytes 80) (p : Pico) :
    NonceEffect p (handleHs3 m hs3 p) := by
  rcases handleHs3_cases m hs3 p with hforgot | ⟨_, -, -, haccept⟩
  · rw [hforgot]
    exact nonceEffect_of_eq rfl rfl rfl
  · rw [haccept]
    exact .none rfl rfl id rfl rfl

/-- Reloading the slot does not touch the generator. -/
theorem reload_nonce (p : Pico) :
    (p.reload m).bootSalt = p.bootSalt ∧
      (p.reload m).msgCounter = p.msgCounter ∧
      (p.reload m).rebootPending = p.rebootPending := by
  rw [Pico.reload]
  cases picoReadKeyPairFromSlot m p.flash p.currentSlot with
  | none => exact ⟨rfl, rfl, rfl⟩
  | some pair => exact ⟨rfl, rfl, rfl⟩

/-- Neither renewal depends on what else happens to the state. -/
theorem NonceEffect.reload {p : Pico} {r : Pico × List PicoOut}
    (h : NonceEffect p r) : NonceEffect p (r.1.reload m, r.2) := by
  obtain ⟨hsalt, hctr, hpending⟩ := reload_nonce m r.1
  cases h with
  | none salt ctr pending salts calls =>
      exact .none (hsalt.trans salt) (hctr.trans ctr)
        (fun hp => hpending.trans (pending hp)) salts calls
  | renewed ctr salts calls =>
      exact .renewed (hctr.trans ctr) (by rw [salts, hsalt]) calls
  | failed pending salts calls =>
      exact .failed (hpending.trans pending) salts calls
  | used key salt ctr pending salts calls =>
      exact .used key (hsalt.trans salt) (hctr.trans ctr)
        (hpending.trans pending) salts calls

/-- The receipt of a key says nothing about nonces. -/
theorem NonceEffect.keyReceived {p : Pico} {r : Pico × List PicoOut}
    (h : NonceEffect p r) {id : Bytes 8} {key : Bytes 16} {macKey : Bytes 32} :
    NonceEffect p (r.1, .keyReceived id key macKey :: r.2) := by
  cases h with
  | none salt ctr pending salts calls => exact .none salt ctr pending salts calls
  | renewed ctr salts calls => exact .renewed ctr salts calls
  | failed pending salts calls => exact .failed pending salts calls
  | used key salt ctr pending salts calls =>
      exact .used key salt ctr pending salts calls

theorem nonceEffect_handleCommandLine (env : PicoEnv) (cmd : List UInt8)
    (p : Pico) : NonceEffect p (handleCommandLine m env cmd p) := by
  simp only [handleCommandLine]
  split
  · exact .none rfl rfl id rfl rfl
  · split
    · exact (nonceEffect_picoNonceInit env p
        (handleCommands m env cmd p).2).reload m
    · obtain ⟨key, slot, ram, flash, pending, heq, hpending⟩ :=
        commandFrame_handleCommands m env cmd p
      rw [heq]
      exact .none rfl rfl hpending rfl rfl

theorem nonceEffect_encryptAndSend (t : DataType) (payload : List UInt8)
    (p : Pico) : NonceEffect p (encryptAndSend m t payload p) := by
  simp only [encryptAndSend, picoNonceGenerate]
  split
  · exact .used p.sessionKey rfl rfl rfl rfl rfl
  · exact .used p.sessionKey rfl rfl rfl rfl rfl

theorem nonceEffect_handleMessageLine (env : PicoEnv) (msg : List UInt8)
    (p : Pico) : NonceEffect p (handleMessageLine m hse env msg p) := by
  rcases handleMessageLine_cases m hse env msg p with hdrop | ⟨t, payload, hsend⟩
  · rw [hdrop]
    exact nonceEffect_of_eq rfl rfl rfl
  · rw [hsend]
    exact nonceEffect_encryptAndSend m t payload p

theorem nonceEffect_picoBoot (env : PicoEnv) (p : Pico) (flash : Flash) :
    NonceEffect p (picoBoot m env flash) := by
  simp only [picoBoot, picoNonceInit]
  cases env.salt with
  | none =>
      split
      · exact .failed rfl rfl rfl
      · exact .failed rfl rfl rfl
  | some salt =>
      split
      · exact .renewed rfl rfl rfl
      · exact .renewed rfl rfl rfl

/-- Every step has one of the four effects. -/
theorem nonceEffect_picoStep (p : Pico) (env : PicoEnv) (e : PicoEvent) :
    NonceEffect p (picoStep m hse p env e) := by
  cases e with
  | uart r =>
      cases r with
      | hs1 payload => exact nonceEffect_handleHs1 m env payload p
      | hs3 payload => exact nonceEffect_handleHs3 m payload p
      | key newId newKey newMacKey =>
          exact (nonceEffect_picoNonceInit env p _).keyReceived
      | _ => exact nonceEffect_of_eq rfl rfl rfl
  | line text =>
      simp only [picoStep, handleLine]
      split
      · exact nonceEffect_handleCommandLine m env _ p
      · exact nonceEffect_handleMessageLine m hse env text p
  | boot => exact nonceEffect_picoBoot m env p p.flash

/-- Unless it wraps to zero, the counter grows. -/
theorem toNat_succ_of_ne_zero {ctr : UInt32} (h : ctr + 1 ≠ 0) :
    (ctr + 1).toNat = ctr.toNat + 1 := by
  have hlt := ctr.toNat_lt
  have hadd : (ctr + 1).toNat = (ctr.toNat + 1) % 4294967296 := by
    simp [UInt32.toNat_add]
  have hne : (ctr + 1).toNat ≠ 0 := by
    intro hzero
    exact h (UInt32.toNat_inj.mp hzero)
  omega

/-! ## Whole runs -/

/-- A sender without power. -/
def Pico.off (flash : Flash) : Pico where
  sessionKey := Bytes.zero 16
  sessionMacKey := Bytes.zero 32
  sessionKeyId := Bytes.zero 8
  savedPicoNonce := Bytes.zero 8
  currentSlot := .A
  keyram := ⟨Bytes.zero 8, Bytes.zero 16, false⟩
  flash := flash
  bootSalt := Bytes.zero 8
  msgCounter := 0
  led25 := false
  rebootPending := true

/-- Salts do not repeat, and once a reboot has been asked for nothing is encrypted
before it comes. -/
def FreshSurroundings (t : List PicoOut) (p : Pico)
    (e : PicoEnv × PicoEvent) : Prop :=
  (∀ salt ∈ saltsDrawn (picoStep m hse p e.1 e.2).2, salt ∉ saltsDrawn t) ∧
    (p.rebootPending = true → gcmCalls (picoStep m hse p e.1 e.2).2 = [])

instance (t : List PicoOut) (p : Pico) (e : PicoEnv × PicoEvent) :
    Decidable (FreshSurroundings m hse t p e) :=
  inferInstanceAs (Decidable (_ ∧ _))

/-- What holds of a state and its past: the nonces used are distinct, each has a
salt that was drawn, and those with the current salt have counters that are gone. -/
structure NoncesSpent (t : List PicoOut) (p : Pico) : Prop where
  nodup : ((gcmCalls t).map Prod.snd).Nodup
  drawn : ∀ nonce ∈ (gcmCalls t).map Prod.snd,
    ∃ salt ∈ saltsDrawn t, ∃ ctr, nonce = gcmNonce salt ctr
  current : p.rebootPending = false → p.bootSalt ∈ saltsDrawn t ∧
    ∀ ctr, gcmNonce p.bootSalt ctr ∈ (gcmCalls t).map Prod.snd →
      ctr.toNat < p.msgCounter.toNat

section

variable {t out : List PicoOut} {p p' : Pico}

/-- A step without a salt and without an encryption. -/
theorem NoncesSpent.frame (h : NoncesSpent t p) (hcalls : gcmCalls out = [])
    (hsalts : saltsDrawn out = [])
    (hcurrent : p'.rebootPending = false → p.rebootPending = false ∧
      p'.bootSalt = p.bootSalt ∧ p'.msgCounter = p.msgCounter) :
    NoncesSpent (t ++ out) p' := by
  have hc : gcmCalls (t ++ out) = gcmCalls t := by
    rw [gcmCalls_append, hcalls, List.append_nil]
  have hs : saltsDrawn (t ++ out) = saltsDrawn t := by
    rw [saltsDrawn_append, hsalts, List.append_nil]
  refine ⟨hc ▸ h.nodup, ?_, ?_⟩
  · rw [hc, hs]
    exact h.drawn
  · intro hrun
    obtain ⟨hbefore, hsalt, hctr⟩ := hcurrent hrun
    rw [hc, hs, hsalt, hctr]
    exact h.current hbefore

/-- A step that draws a new salt. -/
theorem NoncesSpent.renew (h : NoncesSpent t p) (hcalls : gcmCalls out = [])
    (hsalts : saltsDrawn out = [p'.bootSalt])
    (hfresh : p'.bootSalt ∉ saltsDrawn t) : NoncesSpent (t ++ out) p' := by
  have hc : gcmCalls (t ++ out) = gcmCalls t := by
    rw [gcmCalls_append, hcalls, List.append_nil]
  have hs : saltsDrawn (t ++ out) = saltsDrawn t ++ [p'.bootSalt] := by
    rw [saltsDrawn_append, hsalts]
  refine ⟨hc ▸ h.nodup, ?_, ?_⟩
  · rw [hc, hs]
    intro nonce hnonce
    obtain ⟨salt, hsalt, hctr⟩ := h.drawn nonce hnonce
    exact ⟨salt, List.mem_append_left _ hsalt, hctr⟩
  · intro _
    rw [hc, hs]
    refine ⟨List.mem_append_right _ (List.mem_singleton_self _), ?_⟩
    intro c hnonce
    -- a nonce with the new salt would have drawn that salt before
    obtain ⟨salt, hsalt, c', heq⟩ := h.drawn _ hnonce
    obtain ⟨rfl, -⟩ := gcmNonce_inj heq
    exact absurd hsalt hfresh

/-- A step that encrypts under the current salt and counter. -/
theorem NoncesSpent.spend (h : NoncesSpent t p) {key : Bytes 16}
    (hcalls : gcmCalls out = [(key, gcmNonce p.bootSalt p.msgCounter)])
    (hsalts : saltsDrawn out = []) (hbefore : p.rebootPending = false)
    (hsalt : p'.bootSalt = p.bootSalt) (hctr : p'.msgCounter = p.msgCounter + 1)
    (hwrap : p'.rebootPending = false → p.msgCounter + 1 ≠ 0) :
    NoncesSpent (t ++ out) p' := by
  have hc : (gcmCalls (t ++ out)).map Prod.snd =
      (gcmCalls t).map Prod.snd ++ [gcmNonce p.bootSalt p.msgCounter] := by
    rw [gcmCalls_append, hcalls, List.map_append]
    rfl
  have hs : saltsDrawn (t ++ out) = saltsDrawn t := by
    rw [saltsDrawn_append, hsalts, List.append_nil]
  obtain ⟨hdrawn, hspent⟩ := h.current hbefore
  refine ⟨?_, ?_, ?_⟩
  · rw [hc, List.nodup_append']
    have hnew : gcmNonce p.bootSalt p.msgCounter ∉ (gcmCalls t).map Prod.snd := by
      intro hmem
      exact Nat.lt_irrefl _ (hspent _ hmem)
    exact ⟨h.nodup, List.nodup_singleton _, by simpa using hnew⟩
  · rw [hc, hs]
    intro nonce hnonce
    rcases List.mem_append.mp hnonce with hold | hlast
    · exact h.drawn nonce hold
    · exact ⟨p.bootSalt, hdrawn, p.msgCounter, List.mem_singleton.mp hlast⟩
  · intro hrun
    rw [hc, hs, hsalt, hctr, toNat_succ_of_ne_zero (hwrap hrun)]
    refine ⟨hdrawn, ?_⟩
    intro c hnonce
    rcases List.mem_append.mp hnonce with hold | hlast
    · exact Nat.lt_succ_of_lt (hspent c hold)
    · obtain ⟨-, rfl⟩ := gcmNonce_inj (List.mem_singleton.mp hlast)
      exact Nat.lt_succ_self _

theorem noncesSpent_step (e : PicoEnv × PicoEvent) (h : NoncesSpent t p)
    (hok : FreshSurroundings m hse t p e) :
    NoncesSpent (t ++ (picoStep m hse p e.1 e.2).2)
      (picoStep m hse p e.1 e.2).1 := by
  obtain ⟨hfresh, hreboot⟩ := hok
  cases nonceEffect_picoStep m hse p e.1 e.2 with
  | none salt ctr pending salts calls =>
      refine h.frame calls salts ?_
      intro hrun
      refine ⟨?_, salt, ctr⟩
      by_contra hne
      rw [pending (by simpa using hne)] at hrun
      exact Bool.noConfusion hrun
  | renewed ctr salts calls =>
      exact h.renew calls salts
        (hfresh _ (salts ▸ List.mem_singleton_self _))
  | failed pending salts calls =>
      refine h.frame calls salts ?_
      intro hrun
      rw [pending] at hrun
      exact Bool.noConfusion hrun
  | used key salt ctr pending salts calls =>
      have hbefore : p.rebootPending = false := by
        by_contra hne
        have hnone := hreboot (by simpa using hne)
        rw [calls] at hnone
        exact List.cons_ne_nil _ _ hnone
      refine h.spend calls salts hbefore salt ctr ?_
      intro hrun
      rw [pending, hbefore, Bool.false_or] at hrun
      simpa using hrun

end

/-- In every run of the sender, from power-off and with any interleaving of
messages, keys, commands and reboots, no two encryptions use the same key and
nonce. -/
theorem gcm_nonces_unique (flash : Flash) {t : List PicoOut} {p : Pico}
    (h : (lifiSender m hse).Reach (FreshSurroundings m hse) (Pico.off flash) t p) :
    (gcmCalls t).Nodup := by
  have hspent : NoncesSpent t p := by
    refine h.invariant ?_ (fun t p e hinv hok => noncesSpent_step m hse e hinv hok)
    exact ⟨by simp [gcmCalls], by simp [gcmCalls], by simp [Pico.off]⟩
  exact List.Nodup.of_map Prod.snd hspent.nodup

/-- An encoder that finds nothing to compress. -/
def HeatshrinkEncoder.idle : HeatshrinkEncoder where
  State := Unit
  alloc := ()
  sink _ _ := (some 0, ())
  poll _ _ := (false, [], ())
  finish _ := (false, ())

/-- Surroundings that draw the given salt. -/
def PicoEnv.withSalt (salt : Option (Bytes 8)) : PicoEnv where
  salt := salt
  hs2 := ⟨Bytes.zero 8, Bytes.zero 16⟩
  wait := []
  encoderAlloc := false

/-- Surroundings that draw a salt of ones. -/
def PicoEnv.salted : PicoEnv :=
  .withSalt (some (List.Vector.replicate 8 1))

/-- A boot, a key typed by hand, two messages and a reboot. -/
def shortRun : List (PicoEnv × PicoEvent) :=
  [(.withSalt (some (List.Vector.replicate 8 1)), .boot),
    (.withSalt (some (List.Vector.replicate 8 2)),
      .line (ascii "CMD: key 000102030405060708090a0b0c0d0e0f")),
    (.salted, .line (ascii "hello")),
    (.salted, .line (ascii "hello")),
    (.withSalt (some (List.Vector.replicate 8 3)), .boot)]

theorem gcm_nonces_unique_shortRun :
    (gcmCalls ((lifiSender Mbedtls.transparent .idle).trace
      (Pico.off Flash.erased) shortRun)).Nodup := by
  refine gcm_nonces_unique Mbedtls.transparent .idle Flash.erased
    (Machine.reach_run shortRun ?_)
  decide +kernel

end LifiAuth
