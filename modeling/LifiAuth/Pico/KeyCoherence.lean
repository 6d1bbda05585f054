import LifiAuth.Pico.KeyStore
import LifiAuth.Pico.NonceUnique

/-!
# Coherence of the sender's keys

Three relations between the key in use and where it came from: the current slot
holds it, it was delivered together with the MAC key, and it survives a reboot.
-/

namespace LifiAuth

open Support

/-! ## The key in use and the current slot -/

/-- The pair in use is the one in the current slot, or zero if that is empty. -/
def KeyStore.Coherent (k : KeyStore) : Prop :=
  (k.keyId, k.key) = (k.stored k.slot).getD (Bytes.zero 8, Bytes.zero 16)

/-- The operation leaves the current slot empty, by clearing it or by going to an
empty one. -/
def KeyOp.Empties (k : KeyStore) : KeyOp → Prop
  | clear s => k.slot = s
  | clearAll => True
  | switch => k.stored k.slot.other = none
  | use s => k.slot ≠ s ∧ k.stored s = none
  | keep | install _ _ | deliver _ _ | restart => False

/-- Going to an empty slot leaves the key id behind. -/
theorem coherent_activate_iff (k : KeyStore) (s : Slot) :
    (k.activate s).Coherent ↔ (k.stored s = none → k.keyId = Bytes.zero 8) := by
  cases h : k.stored s with
  | none => simp [KeyStore.activate, KeyStore.Coherent, h]
  | some pair => simp [KeyStore.activate, KeyStore.Coherent, h]

theorem coherent_install (k : KeyStore) (pair : KeyPair) :
    (k.install pair).Coherent := by
  simp [KeyStore.install, KeyStore.Coherent]

theorem coherent_erase_of_ne {k : KeyStore} {s : Slot} (hs : k.slot ≠ s)
    (hk : k.Coherent) : (k.erase s).Coherent := by
  have hstored : (k.erase s).stored k.slot = k.stored k.slot :=
    Function.update_of_ne hs ..
  simp only [KeyStore.Coherent]
  rw [show (k.erase s).slot = k.slot from rfl, hstored]
  exact hk

/-- An operation keeps coherence exactly when it does not leave an empty slot under
a key id. -/
theorem coherent_apply_iff {k : KeyStore} (hk : k.Coherent) {op : KeyOp}
    (hop : op ≠ .restart) :
    (k.apply op).Coherent ↔ (op.Empties k → k.keyId = Bytes.zero 8) := by
  cases op with
  | keep => simpa [KeyStore.apply, KeyOp.Empties] using hk
  | clear s =>
      by_cases hs : k.slot = s
      · have hempty : (k.erase s).stored s = none := Function.update_self ..
        have hid : (k.erase s).keyId = k.keyId := rfl
        rw [KeyStore.apply, if_pos hs, coherent_activate_iff, hid]
        simp [KeyOp.Empties, hs, hempty]
      · rw [KeyStore.apply, if_neg hs]
        simpa [KeyOp.Empties, hs] using coherent_erase_of_ne hs hk
  | clearAll =>
      have hempty : ((k.erase .A).erase .B).stored k.slot = none := by
        simp only [KeyStore.erase]
        cases k.slot with
        | A => rfl
        | B => rfl
      have hid : ((k.erase .A).erase .B).keyId = k.keyId := rfl
      rw [KeyStore.apply, coherent_activate_iff, hid]
      simp [KeyOp.Empties, hempty]
  | switch => exact coherent_activate_iff k k.slot.other
  | use s =>
      by_cases hs : k.slot = s
      · rw [KeyStore.apply, if_pos hs]
        simpa [KeyOp.Empties, hs] using hk
      · rw [KeyStore.apply, if_neg hs, coherent_activate_iff]
        simp [KeyOp.Empties, hs]
  | install forced pair =>
      have hkept : (k.apply (.install forced pair)).Coherent := by
        rw [KeyStore.apply]
        split
        · exact hk
        · exact coherent_install k pair
      simpa [KeyOp.Empties] using hkept
  | deliver pair macKey =>
      have hkept : (k.apply (.deliver pair macKey)).Coherent :=
        coherent_install k pair
      simpa [KeyOp.Empties] using hkept
  | restart => exact absurd rfl hop

variable (m : Mbedtls) (hse : HeatshrinkEncoder)

/-- The id and key in use are those of the current slot, or zero if it is not
valid. -/
def Pico.KeyCoherent (p : Pico) : Prop :=
  (p.sessionKeyId, p.sessionKey) =
    (picoReadKeyPairFromSlot m p.flash p.currentSlot).getD
      (Bytes.zero 8, Bytes.zero 16)

instance (p : Pico) : Decidable (p.KeyCoherent m) :=
  inferInstanceAs (Decidable (_ = _))

/-- The event is a command that leaves the current slot empty. -/
def EmptiesSlot (e : PicoEnv × PicoEvent) (p : Pico) : Prop :=
  (keyOp e.1 e.2).Empties (p.keyStore m)

instance (k : KeyStore) : (op : KeyOp) → Decidable (op.Empties k)
  | .clear _ => inferInstanceAs (Decidable (_ = _))
  | .clearAll => inferInstanceAs (Decidable True)
  | .switch => inferInstanceAs (Decidable (_ = none))
  | .use _ => inferInstanceAs (Decidable (_ ∧ _))
  | .keep | .install _ _ | .deliver _ _ | .restart =>
      inferInstanceAs (Decidable False)

instance (e : PicoEnv × PicoEvent) (p : Pico) : Decidable (EmptiesSlot m e p) :=
  inferInstanceAs (Decidable (KeyOp.Empties _ _))

/-- No command leaves an empty slot while there is a key id. -/
def EmptiesOnlyZeroId (_ : List PicoOut) (p : Pico) (e : PicoEnv × PicoEvent) :
    Prop :=
  EmptiesSlot m e p → p.sessionKeyId = Bytes.zero 8

instance (t : List PicoOut) (p : Pico) (e : PicoEnv × PicoEvent) :
    Decidable (EmptiesOnlyZeroId m t p e) :=
  inferInstanceAs (Decidable (_ → _))

variable {m}

theorem commandOp_ne_restart (env : PicoEnv) (cmd : List UInt8) :
    commandOp env cmd ≠ .restart :=
  commandOp_induction (Q := (· ≠ .restart)) KeyOp.noConfusion
    (fun _ => KeyOp.noConfusion) KeyOp.noConfusion KeyOp.noConfusion
    (fun _ => KeyOp.noConfusion) (fun _ _ => KeyOp.noConfusion) env cmd

theorem keyOp_ne_restart {e : PicoEnv × PicoEvent} (he : e.2 ≠ .boot) :
    keyOp e.1 e.2 ≠ .restart := by
  obtain ⟨env, ev⟩ := e
  cases ev with
  | uart r =>
      cases r with
      | _ => simp [keyOp]
  | line text =>
      rw [keyOp]
      split
      · exact commandOp_ne_restart env _
      · simp
  | boot => exact absurd rfl he

/-- From a coherent state, the events of the main loop lead to coherent states only
exactly if no command leaves the current slot empty while there is a key id. -/
theorem run_keyCoherent_iff {p : Pico} (hp : p.KeyCoherent m)
    {es : List (PicoEnv × PicoEvent)} (hes : ∀ e ∈ es, e.2 ≠ .boot) :
    (∀ n, ((lifiSender m hse).run p (es.take n)).KeyCoherent m) ↔
      (lifiSender m hse).Admissible (EmptiesOnlyZeroId m) [] p es := by
  apply Machine.forall_run_take_iff (P := Pico.KeyCoherent m) _ [] hp
  intro _ p e he hp
  have hstep := coherent_apply_iff (k := p.keyStore m) hp
    (keyOp_ne_restart (hes e he))
  rw [← keyStore_picoStep m hse] at hstep
  exact hstep

/-- A KEY frame, and a command that clears the slot it went to. -/
def keyThenClear : List (PicoEnv × PicoEvent) :=
  [(.salted, .uart (.key (List.Vector.replicate 8 1)
      (List.Vector.replicate 16 2) (List.Vector.replicate 32 3))),
    (.salted, .line (ascii "CMD: clear slot A"))]

/-- The slot is empty and the key is zero, but the key id is not. -/
theorem clear_leaves_keyId :
    (Pico.off Flash.erased).KeyCoherent .transparent ∧
      (∀ e ∈ keyThenClear, e.2 ≠ .boot) ∧
      ¬ ((lifiSender .transparent .idle).run (Pico.off Flash.erased)
        keyThenClear).KeyCoherent .transparent := by
  refine ⟨by decide +kernel, ?_, by decide +kernel⟩
  simp [keyThenClear]

/-- A switch to an empty slot before there is a key, and a KEY frame. -/
def switchThenKey : List (PicoEnv × PicoEvent) :=
  [(.salted, .line (ascii "CMD: switch slot")),
    (.salted, .uart (.key (List.Vector.replicate 8 1)
      (List.Vector.replicate 16 2) (List.Vector.replicate 32 3)))]

theorem keyCoherent_switchThenKey :
    ((lifiSender .transparent .idle).run (Pico.off Flash.erased)
      (switchThenKey.take 2)).KeyCoherent .transparent := by
  refine (run_keyCoherent_iff .idle ?_ ?_).mpr ?_ 2
  · decide +kernel
  · simp [switchThenKey]
  · decide +kernel

/-! ## The key in use and the MAC key -/

namespace KeyOp

/-- The KEY frame of an operation. -/
def delivered : KeyOp → Option (KeyPair × Bytes 32)
  | deliver pair macKey => some (pair, macKey)
  | _ => none

/-- The pair that an operation may put into a slot. -/
def pair : KeyOp → Option KeyPair
  | install _ pair | deliver pair _ => some pair
  | _ => none

/-- The operation may change the id, the key or the MAC key in use. -/
def Replaces (k : KeyStore) : KeyOp → Prop
  | keep => False
  | clear s => k.slot = s
  | use s => k.slot ≠ s
  | install forced _ => forced = true ∨ k.stored k.slot = none
  | clearAll | switch | deliver _ _ | restart => True

instance (k : KeyStore) : (op : KeyOp) → Decidable (op.Replaces k)
  | .keep => inferInstanceAs (Decidable False)
  | .clear _ => inferInstanceAs (Decidable (_ = _))
  | .use _ => inferInstanceAs (Decidable (_ ≠ _))
  | .install _ _ => inferInstanceAs (Decidable (_ ∨ _ = none))
  | .clearAll | .switch | .deliver _ _ | .restart =>
      inferInstanceAs (Decidable True)

/-- The last KEY frame since the last restart, if `last` was it before. -/
def nextDelivered (last : Option (KeyPair × Bytes 32)) :
    KeyOp → Option (KeyPair × Bytes 32)
  | restart => none
  | op => op.delivered.or last

end KeyOp

/-- The last KEY frame since the last restart. -/
def lastDelivered (ops : List KeyOp) : Option (KeyPair × Bytes 32) :=
  ops.foldl KeyOp.nextDelivered none

namespace KeyStore

variable {k : KeyStore} {op : KeyOp}

theorem macKey_activate (s : Slot) (k : KeyStore) :
    (k.activate s).macKey = k.macKey := by
  rw [activate]
  split
  · rfl
  · rfl

/-- The MAC key is the one of `last`, or zero. -/
def HoldsMacKey (last : Option (KeyPair × Bytes 32)) (k : KeyStore) : Prop :=
  k.macKey = (last.map Prod.snd).getD (Bytes.zero 32)

/-- Only a KEY frame and a restart touch the MAC key. -/
theorem HoldsMacKey.apply {last : Option (KeyPair × Bytes 32)}
    (h : k.HoldsMacKey last) (op : KeyOp) :
    (k.apply op).HoldsMacKey (op.nextDelivered last) := by
  cases op with
  | keep => exact h
  | clear s =>
      rw [KeyStore.apply]
      split
      · exact (macKey_activate s _).trans h
      · exact h
  | clearAll => exact (macKey_activate _ _).trans h
  | switch => exact (macKey_activate _ _).trans h
  | use s =>
      rw [KeyStore.apply]
      split
      · exact h
      · exact (macKey_activate s _).trans h
  | install forced pair =>
      rw [KeyStore.apply]
      split
      · exact h
      · exact h
  | deliver pair macKey => rfl
  | restart => rfl

/-- No command does. -/
theorem macKey_commandOp (k : KeyStore) (env : PicoEnv) (cmd : List UInt8) :
    (k.apply (commandOp env cmd)).macKey = k.macKey := by
  have hholds : k.HoldsMacKey (some ((k.keyId, k.key), k.macKey)) := rfl
  refine commandOp_induction (Q := fun op => (k.apply op).macKey = k.macKey)
    (hholds.apply .keep) (fun s => hholds.apply (.clear s)) (hholds.apply .clearAll)
    (hholds.apply .switch) (fun s => hholds.apply (.use s)) ?_ env cmd
  intro forced pair
  exact hholds.apply (.install forced pair)

theorem HoldsMacKey.run {last : Option (KeyPair × Bytes 32)}
    (h : k.HoldsMacKey last) (ops : List KeyOp) :
    (keyStore.run k ops).HoldsMacKey (ops.foldl KeyOp.nextDelivered last) := by
  induction ops generalizing k last with
  | nil => exact h
  | cons op ops ih => exact ih (h.apply op)

/-- The pair in use, unless the key is zero, and the pairs in the slots have `K`. -/
structure Sourced (K : KeyPair → Prop) (k : KeyStore) : Prop where
  inUse : k.key = Bytes.zero 16 ∨ K (k.keyId, k.key)
  inSlots : ∀ s pair, k.stored s = some pair → K pair

namespace Sourced

variable {K : KeyPair → Prop}

theorem erase (h : k.Sourced K) (s : Slot) : (k.erase s).Sourced K := by
  refine ⟨h.inUse, ?_⟩
  intro t pair ht
  by_cases hts : t = s
  · rw [hts, stored_erase, Function.update_self] at ht
    cases ht
  · rw [stored_erase, Function.update_of_ne hts] at ht
    exact h.inSlots t pair ht

theorem activate (h : k.Sourced K) (s : Slot) : (k.activate s).Sourced K := by
  rw [KeyStore.activate]
  split
  · next pair hpair => exact ⟨Or.inr (h.inSlots s pair hpair), h.inSlots⟩
  · exact ⟨Or.inl rfl, h.inSlots⟩

theorem install (h : k.Sourced K) {pair : KeyPair} (hpair : K pair) :
    (k.install pair).Sourced K := by
  refine ⟨Or.inr hpair, ?_⟩
  intro t pair' ht
  by_cases hts : t = k.slot
  · rw [hts, stored_install, Function.update_self] at ht
    exact Option.some.inj ht ▸ hpair
  · rw [stored_install, Function.update_of_ne hts] at ht
    exact h.inSlots t pair' ht

theorem restart (h : k.Sourced K) : k.restart.Sourced K := by
  refine ⟨?_, h.inSlots⟩
  simp only [KeyStore.restart]
  cases hB : k.stored .B with
  | some pair => exact Or.inr (h.inSlots .B pair hB)
  | none =>
      cases hA : k.stored .A with
      | some pair => exact Or.inr (h.inSlots .A pair hA)
      | none => exact Or.inl rfl

/-- Only the pair of an installing operation is new. -/
theorem apply (h : k.Sourced K) (hop : ∀ pair, op.pair = some pair → K pair) :
    (k.apply op).Sourced K := by
  cases op with
  | keep => exact h
  | clear s =>
      rw [KeyStore.apply]
      split
      · exact (h.erase s).activate s
      · exact h.erase s
  | clearAll => exact ((h.erase .A).erase .B).activate k.slot
  | switch => exact h.activate k.slot.other
  | use s =>
      rw [KeyStore.apply]
      split
      · exact h
      · exact h.activate s
  | install forced pair =>
      rw [KeyStore.apply]
      split
      · exact h
      · exact h.install (hop pair rfl)
  | deliver pair macKey =>
      obtain ⟨inUse, inSlots⟩ := h.install (hop pair rfl)
      exact ⟨inUse, inSlots⟩
  | restart => exact h.restart

theorem run {ops : List KeyOp} (h : k.Sourced K)
    (hops : ∀ op ∈ ops, ∀ pair, op.pair = some pair → K pair) :
    (keyStore.run k ops).Sourced K := by
  induction ops generalizing k with
  | nil => exact h
  | cons op ops ih =>
      obtain ⟨hop, hops⟩ := List.forall_mem_cons.mp hops
      exact ih (h.apply hop) hops

end Sourced

/-- The id, the key and the MAC key in use. -/
def triple (k : KeyStore) : Bytes 8 × Bytes 16 × Bytes 32 :=
  (k.keyId, k.key, k.macKey)

/-- An operation that replaces nothing leaves the triple in use alone. -/
theorem triple_apply (h : ¬ op.Replaces k) : (k.apply op).triple = k.triple := by
  cases op with
  | keep => rfl
  | clear s =>
      have hs : ¬ k.slot = s := h
      rw [apply, if_neg hs]
      rfl
  | use s =>
      have hs : k.slot = s := not_not.mp h
      rw [apply, if_pos hs]
  | install forced pair =>
      rw [KeyOp.Replaces, not_or, Bool.not_eq_true, ← ne_eq,
        Option.ne_none_iff_isSome] at h
      rw [apply, if_pos h]
  | clearAll => exact absurd trivial h
  | switch => exact absurd trivial h
  | deliver pair macKey => exact absurd trivial h
  | restart => exact absurd trivial h

end KeyStore

/-- The event is not a restart, a KEY frame or a command that clears or replaces the
key in use. -/
def KeepsTriple (m : Mbedtls) (_ : List PicoOut) (p : Pico)
    (e : PicoEnv × PicoEvent) : Prop :=
  ¬ (keyOp e.1 e.2).Replaces (p.keyStore m)

instance (t : List PicoOut) (p : Pico) (e : PicoEnv × PicoEvent) :
    Decidable (KeepsTriple m t p e) :=
  inferInstanceAs (Decidable (¬ _))

theorem triple_run_of_keeps {p : Pico} {es : List (PicoEnv × PicoEvent)}
    {t : List PicoOut} (hes : (lifiSender m hse).Admissible (KeepsTriple m) t p es) :
    (((lifiSender m hse).run p es).keyStore m).triple = (p.keyStore m).triple := by
  refine hes.invariant (P := fun q => (q.keyStore m).triple = (p.keyStore m).triple)
    ?_ rfl
  intro _ q e hq he
  have hstep := keyStore_picoStep m hse q e
  calc ((picoStep m hse q e.1 e.2).1.keyStore m).triple
      = ((q.keyStore m).apply (keyOp e.1 e.2)).triple := by rw [hstep]
    _ = (q.keyStore m).triple := KeyStore.triple_apply he
    _ = (p.keyStore m).triple := hq

/-- After a boot and any events: the MAC key is the one of the last KEY frame since
the last boot, or zero; the id and the key are a pair from the flash or from one of
the events, or the key is zero; and as long as nothing clears or replaces the key
after a KEY frame, the id, the key and the MAC key are those of that frame. -/
theorem triple_history (env : PicoEnv) (flash : Flash)
    (es : List (PicoEnv × PicoEvent)) :
    let p := (lifiSender m hse).run (picoBoot m env flash).1 es
    p.sessionMacKey = ((lastDelivered (es.map fun e => keyOp e.1 e.2)).map
        Prod.snd).getD (Bytes.zero 32) ∧
      (p.sessionKey = Bytes.zero 16 ∨
        (∃ s, picoReadKeyPairFromSlot m flash s =
          some (p.sessionKeyId, p.sessionKey)) ∨
        ∃ e ∈ es, (keyOp e.1 e.2).pair = some (p.sessionKeyId, p.sessionKey)) ∧
      ∀ before after env' id key macKey,
        es = before ++ (env', .uart (.key id key macKey)) :: after →
        (lifiSender m hse).Admissible (KeepsTriple m) []
          ((lifiSender m hse).run (picoBoot m env flash).1
            (before ++ [(env', .uart (.key id key macKey))])) after →
        (p.sessionKeyId, p.sessionKey, p.sessionMacKey) = (id, key, macKey) := by
  have hboot := keyStore_picoBoot m env (Pico.off flash)
  have hrun := keyStore_run m hse (picoBoot m env flash).1 es
  refine ⟨?_, ?_, ?_⟩
  · have hstart : ((picoBoot m env flash).1.keyStore m).HoldsMacKey none :=
      congrArg KeyStore.macKey hboot
    have hmac := hstart.run (es.map fun e => keyOp e.1 e.2)
    rw [← hrun] at hmac
    exact hmac
  · let K : KeyPair → Prop := fun pair =>
      (∃ s, picoReadKeyPairFromSlot m flash s = some pair) ∨
        ∃ e ∈ es, (keyOp e.1 e.2).pair = some pair
    have hoff : ((Pico.off flash).keyStore m).Sourced K :=
      ⟨Or.inl rfl, fun s pair hs => Or.inl ⟨s, hs⟩⟩
    have hstart : ((picoBoot m env flash).1.keyStore m).Sourced K := by
      have hrestart := hoff.restart
      rw [← hboot] at hrestart
      exact hrestart
    have hops : ∀ op ∈ es.map fun e => keyOp e.1 e.2,
        ∀ pair, op.pair = some pair → K pair := by
      intro op hop pair hpair
      obtain ⟨e, he, rfl⟩ := List.mem_map.mp hop
      exact Or.inr ⟨e, he, hpair⟩
    have hsourced := hstart.run hops
    rw [← hrun] at hsourced
    exact hsourced.inUse
  · intro before after env' id key macKey hes hafter
    rw [hes, ← List.singleton_append, ← List.append_assoc, Machine.run_append]
    have htriple := triple_run_of_keeps hse hafter
    rw [Machine.run_append] at htriple ⊢
    refine htriple.trans ?_
    have hframe := keyStore_picoStep m hse
      ((lifiSender m hse).run (picoBoot m env flash).1 before)
      (env', .uart (.key id key macKey))
    exact congrArg KeyStore.triple hframe

/-- A KEY frame, a message and a command for the other slot. -/
def keyThenMessage : List (PicoEnv × PicoEvent) :=
  keyThenClear.take 1 ++
    [(.salted, .line (ascii "hello")),
      (.salted, .line (ascii "CMD: clear slot B"))]

theorem triple_history_keyThenMessage :
    let p := (lifiSender .transparent .idle).run
      (picoBoot .transparent .salted Flash.erased).1 keyThenMessage
    (p.sessionKeyId, p.sessionKey, p.sessionMacKey) =
      (List.Vector.replicate 8 1, List.Vector.replicate 16 2,
        List.Vector.replicate 32 3) := by
  refine (triple_history .idle .salted Flash.erased keyThenMessage).2.2
    [] _ .salted _ _ _ rfl ?_
  decide +kernel

/-- A KEY frame and a reboot. -/
def keyThenBoot : List (PicoEnv × PicoEvent) :=
  keyThenClear.take 1 ++ [(.salted, .boot)]

/-- After the reboot the MAC key is zero, and no KEY frame delivered the triple. -/
theorem boot_forgets_macKey :
    let p := (lifiSender .transparent .idle).run
      (picoBoot .transparent .salted Flash.erased).1 keyThenBoot
    (∀ e ∈ keyThenBoot, (keyOp e.1 e.2).delivered ≠
        some ((p.sessionKeyId, p.sessionKey), p.sessionMacKey)) ∧
      (p.sessionKeyId, p.sessionKey, p.sessionMacKey) ≠
        (Bytes.zero 8, Bytes.zero 16, Bytes.zero 32) := by
  decide +kernel

/-! ## The key in use after a reboot -/

/-- The pair in use survives a reboot exactly if slot A holds it and slot B, which
is read first, holds no other one. -/
theorem KeyStore.restart_restores_iff {k : KeyStore} :
    ((k.restart.keyId, k.restart.key) = (k.keyId, k.key) ∧
        k.restart.stored k.restart.slot = some (k.keyId, k.key)) ↔
      k.stored .A = some (k.keyId, k.key) ∧
        (k.stored .B = none ∨ k.stored .B = some (k.keyId, k.key)) := by
  have hslot : k.restart.stored k.restart.slot = k.stored .A := rfl
  rw [hslot]
  constructor
  · rintro ⟨hpair, hA⟩
    refine ⟨hA, ?_⟩
    cases hB : k.stored .B with
    | none => exact Or.inl rfl
    | some pair =>
        simp only [restart, hB, Option.some_or, Option.getD_some] at hpair
        exact Or.inr (congrArg some hpair)
  · rintro ⟨hA, hB | hB⟩
    · exact ⟨by simp [restart, hA, hB], hA⟩
    · exact ⟨by simp [restart, hB], hA⟩

/-- After any run: a reboot starts with the id and key that are in use, and with a
slot that holds them, exactly if slot A holds them and slot B is empty or holds them
too. -/
theorem reboot_keeps_key_iff (env env' : PicoEnv) (flash : Flash)
    (es : List (PicoEnv × PicoEvent)) :
    let p := (lifiSender m hse).run (picoBoot m env flash).1 es
    let p' := (picoBoot m env' p.flash).1
    ((p'.sessionKeyId, p'.sessionKey) = (p.sessionKeyId, p.sessionKey) ∧
        picoReadKeyPairFromSlot m p'.flash p'.currentSlot =
          some (p.sessionKeyId, p.sessionKey)) ↔
      picoReadKeyPairFromSlot m p.flash .A = some (p.sessionKeyId, p.sessionKey) ∧
        (picoReadKeyPairFromSlot m p.flash .B = none ∨
          picoReadKeyPairFromSlot m p.flash .B =
            some (p.sessionKeyId, p.sessionKey)) := by
  intro p p'
  have hrestores := KeyStore.restart_restores_iff (k := p.keyStore m)
  rw [← keyStore_picoBoot m env'] at hrestores
  exact hrestores

/-- A key in slot A, another one in slot B, and back to slot A. -/
def twoSlots : List (PicoEnv × PicoEvent) :=
  keyThenClear.take 1 ++
    [(.salted, .line (ascii "CMD: use slot B")),
      (.salted, .uart (.key (List.Vector.replicate 8 4)
        (List.Vector.replicate 16 5) (List.Vector.replicate 32 6))),
      (.salted, .line (ascii "CMD: use slot A"))]

/-- The key of slot A is in use; the reboot takes the key of slot B. -/
theorem reboot_takes_slotB :
    let p := (lifiSender .transparent .idle).run
      (picoBoot .transparent .salted Flash.erased).1 twoSlots
    let p' := (picoBoot .transparent .salted p.flash).1
    p.currentSlot = .A ∧
      picoReadKeyPairFromSlot .transparent p.flash p.currentSlot =
        some (p.sessionKeyId, p.sessionKey) ∧
      (p.sessionKeyId, p.sessionKey) =
        (List.Vector.replicate 8 1, List.Vector.replicate 16 2) ∧
      (p'.sessionKeyId, p'.sessionKey) =
        (List.Vector.replicate 8 4, List.Vector.replicate 16 5) := by
  decide +kernel

end LifiAuth
