import LifiAuth.Pico.KeyCoherence

/-!
# The authenticated indicator

GPIO 25 is written once, when SST_HS3 verifies.  Beside the sender runs a record of
what the indicator stands for: the id, the key and the MAC key under which the last
SST_HS3 verified.  The indicator tells the truth exactly as long as, while it is on,
no SST_HS3 fails and no operation changes the key in use.
-/

namespace LifiAuth

open Support

/-! ## Which operations leave the key in use -/

namespace KeyStore

/-- Taking over the slot `s` gives the id and the key in use: its pair, or the zero
key if it is empty. -/
def Rereads (k : KeyStore) (s : Slot) : Prop :=
  (k.stored s).getD (k.keyId, Bytes.zero 16) = (k.keyId, k.key)

instance (k : KeyStore) (s : Slot) : Decidable (k.Rereads s) :=
  inferInstanceAs (Decidable (_ = _))

theorem rereads_of_none {k : KeyStore} {s : Slot} (h : k.stored s = none) :
    k.Rereads s ↔ k.key = Bytes.zero 16 := by
  simp [Rereads, h, eq_comm]

theorem triple_activate_iff (k : KeyStore) (s : Slot) :
    (k.activate s).triple = k.triple ↔ k.Rereads s := by
  rw [activate]
  split
  · next pair hpair => simp [Rereads, triple, hpair, Prod.ext_iff]
  · next hnone =>
      rw [rereads_of_none hnone]
      simp [triple, eq_comm]

end KeyStore

/-- The operation leaves the id, the key and the MAC key in use as they are, or is a
restart. -/
def KeyOp.LeavesTriple (k : KeyStore) : KeyOp → Prop
  | .keep => True
  | .clear s => k.slot = s → k.key = Bytes.zero 16
  | .clearAll => k.key = Bytes.zero 16
  | .switch => k.Rereads k.slot.other
  | .use s => k.slot = s ∨ k.Rereads s
  | .install forced pair =>
      (forced = false ∧ (k.stored k.slot).isSome) ∨ pair = (k.keyId, k.key)
  | .deliver pair macKey => (pair.1, pair.2, macKey) = k.triple
  | .restart => True

theorem triple_apply_iff {k : KeyStore} {op : KeyOp} (hop : op ≠ .restart) :
    (k.apply op).triple = k.triple ↔ op.LeavesTriple k := by
  cases op with
  | keep => exact ⟨fun _ => trivial, fun _ => rfl⟩
  | clear s =>
      rw [KeyStore.apply, KeyOp.LeavesTriple]
      split
      · next hs =>
          have herased : (k.erase s).stored s = none := Function.update_self ..
          have hactivate := (k.erase s).triple_activate_iff s
          rw [KeyStore.rereads_of_none herased] at hactivate
          rw [forall_prop_of_true hs]
          exact hactivate
      · next hs => exact ⟨fun _ h => absurd h hs, fun _ => rfl⟩
  | clearAll =>
      have herased : ((k.erase .A).erase .B).stored k.slot = none := by
        cases k.slot with
        | A => rfl
        | B => rfl
      have hactivate := ((k.erase .A).erase .B).triple_activate_iff k.slot
      rw [KeyStore.rereads_of_none herased] at hactivate
      exact hactivate
  | switch => exact k.triple_activate_iff _
  | use s =>
      rw [KeyStore.apply, KeyOp.LeavesTriple]
      split
      · next hs => exact ⟨fun _ => Or.inl hs, fun _ => rfl⟩
      · next hs => rw [k.triple_activate_iff, or_iff_right hs]
  | install forced pair =>
      rw [KeyStore.apply, KeyOp.LeavesTriple]
      split
      · next hkept => exact ⟨fun _ => Or.inl hkept, fun _ => rfl⟩
      · next hkept =>
          rw [or_iff_right hkept]
          simp [KeyStore.install, KeyStore.triple, Prod.ext_iff]
  | deliver pair macKey => exact Iff.rfl
  | restart => exact absurd rfl hop

/-! ## The record -/

variable (m : Mbedtls) (hse : HeatshrinkEncoder)

/-- `SST_HS3` passes all its checks. -/
def hs3Verifies (hs3 : Bytes 80) (p : Pico) : Bool :=
  (openHs3 m hs3 p).any fun plain => hs3Ok plain p.savedPicoNonce

/-- The sender, and the id, the key and the MAC key under which the last `SST_HS3`
verified; none if it failed. -/
structure Watched where
  pico : Pico
  verified : Option (Bytes 8 × Bytes 16 × Bytes 32)

def Watched.nextVerified (w : Watched) :
    PicoEvent → Option (Bytes 8 × Bytes 16 × Bytes 32)
  | .uart (.hs3 hs3) =>
      if hs3Verifies m hs3 w.pico then some (w.pico.keyStore m).triple else none
  | _ => w.verified

/-- The sender with its record. -/
def watchedSender : Machine Watched (PicoEnv × PicoEvent) PicoOut where
  step w e :=
    (⟨(picoStep m hse w.pico e.1 e.2).1, w.nextVerified m e.2⟩,
      (picoStep m hse w.pico e.1 e.2).2)

/-- The record does not disturb the sender. -/
theorem pico_run_watchedSender (w : Watched) (es : List (PicoEnv × PicoEvent)) :
    ((watchedSender m hse).run w es).pico = (lifiSender m hse).run w.pico es := by
  have h : ((watchedSender m hse).run w es).pico =
      (lifiSender m hse).run w.pico (es.map id) :=
    Machine.abs_run Watched.pico (fun _ _ => rfl) w es
  rwa [List.map_id] at h

/-- The indicator is on only under the key that was verified. -/
def Watched.Truthful (w : Watched) : Prop :=
  w.pico.led25 = true → w.verified = some (w.pico.keyStore m).triple

instance (w : Watched) : Decidable (w.Truthful m) :=
  inferInstanceAs (Decidable (_ → _))

/-! ## One step -/

section

variable {m hse} {env : PicoEnv}

theorem led25_picoNonceInit (p : Pico) : (picoNonceInit env p).1.led25 = p.led25 := by
  rw [picoNonceInit]
  split
  · rfl
  · rfl

theorem led25_handleCommandLine (cmd : List UInt8) (p : Pico) :
    (handleCommandLine m env cmd p).1.led25 = p.led25 := by
  obtain ⟨key, slot, ram, flash, pending, hcommand, -⟩ :=
    commandFrame_handleCommands m env cmd p
  have hreload (q : Pico) : (q.reload m).led25 = q.led25 := by
    rw [Pico.reload]
    split
    · rfl
    · rfl
  simp only [handleCommandLine]
  split
  · rfl
  · split
    · rw [hreload, picoNonceOnKeyChange, led25_picoNonceInit, hcommand]
    · rw [hcommand]

theorem led25_handleMessageLine (msg : List UInt8) (p : Pico) :
    (handleMessageLine m hse env msg p).1.led25 = p.led25 := by
  rcases handleMessageLine_cases m hse env msg p with hdrop | ⟨t, payload, hsend⟩
  · rw [hdrop]
  · rw [hsend, encryptAndSend_fst]
    rfl

variable (m hse env) in
/-- Every event but `SST_HS3` and a restart leaves the indicator alone. -/
theorem led25_picoStep (p : Pico) {ev : PicoEvent}
    (hhs3 : ∀ hs3, ev ≠ .uart (.hs3 hs3)) (hboot : ev ≠ .boot) :
    (picoStep m hse p env ev).1.led25 = p.led25 := by
  cases ev with
  | uart r =>
      cases r with
      | hs1 payload =>
          simp only [picoStep, handlePicoReport]
          rcases handleHs1_cases m env payload p with hdrop | ⟨_, _, -, -, hanswer⟩
          · rw [hdrop]
          · rw [hanswer]
      | hs3 payload => exact absurd rfl (hhs3 payload)
      | key newId newKey newMacKey => exact led25_picoNonceInit _
      | _ => rfl
  | line text =>
      simp only [picoStep, handleLine]
      split
      · exact led25_handleCommandLine _ p
      · exact led25_handleMessageLine text p
  | boot => exact absurd rfl hboot

variable (m env) in
theorem led25_picoBoot (flash : Flash) :
    (picoBoot m env flash).1.led25 = false := by
  simp only [picoBoot]
  split
  · exact led25_picoNonceInit _
  · exact led25_picoNonceInit _

variable (m) in
theorem handleHs3_eq (hs3 : Bytes 80) (p : Pico) :
    (handleHs3 m hs3 p).1 =
      { p with
        savedPicoNonce := Bytes.zero 8
        led25 := p.led25 || hs3Verifies m hs3 p } := by
  simp only [handleHs3, hs3Verifies]
  split
  · next hopen => simp [hopen]
  · next plain hopen =>
      split
      · next hok => simp [hopen, hok]
      · next hok => simp [hopen, hok]

variable (m) in
/-- While the indicator is on, an SST_HS3 verifies and nothing changes the key in
use. -/
def KeepsIndicator (_ : List PicoOut) (w : Watched) (e : PicoEnv × PicoEvent) :
    Prop :=
  w.pico.led25 = true →
    match e.2 with
    | .uart (.hs3 hs3) => hs3Verifies m hs3 w.pico = true
    | ev => (keyOp e.1 ev).LeavesTriple (w.pico.keyStore m)

variable (m hse) in
/-- An event that is no SST_HS3 and no restart. -/
theorem truthful_step_iff_of_other {w : Watched} (hw : w.Truthful m)
    {ev : PicoEvent} (hhs3 : ∀ hs3, ev ≠ .uart (.hs3 hs3)) (hboot : ev ≠ .boot) :
    (Watched.mk (picoStep m hse w.pico env ev).1 w.verified).Truthful m ↔
      (w.pico.led25 = true → (keyOp env ev).LeavesTriple (w.pico.keyStore m)) := by
  have hstore := keyStore_picoStep m hse w.pico (env, ev)
  rw [Watched.Truthful, led25_picoStep m hse env w.pico hhs3 hboot]
  refine forall_congr' fun hled => ?_
  rw [hw hled, hstore, Option.some_inj, eq_comm,
    triple_apply_iff (keyOp_ne_restart (e := (env, ev)) hboot)]

/-- From a truthful indicator, the events that keep it truthful. -/
theorem truthful_step_iff {w : Watched} (hw : w.Truthful m) (t : List PicoOut)
    (e : PicoEnv × PicoEvent) :
    ((watchedSender m hse).step w e).1.Truthful m ↔ KeepsIndicator m t w e := by
  obtain ⟨env, ev⟩ := e
  cases ev with
  | uart r =>
      cases r with
      | hs3 hs3 =>
          have hnext : (picoStep m hse w.pico env (.uart (.hs3 hs3))).1 = _ :=
            handleHs3_eq m hs3 w.pico
          simp only [watchedSender, Watched.Truthful, Watched.nextVerified, hnext,
            KeepsIndicator]
          cases hs3Verifies m hs3 w.pico with
          | true => exact ⟨fun _ _ => rfl, fun _ _ => rfl⟩
          | false => simp
      | _ => exact truthful_step_iff_of_other m hse hw nofun nofun
  | line text => exact truthful_step_iff_of_other m hse hw nofun nofun
  | boot =>
      refine ⟨fun _ _ => trivial, fun _ hled => ?_⟩
      have hoff := led25_picoBoot m env w.pico.flash
      exact absurd (hled.symm.trans hoff) (by decide)

end

/-! ## Runs -/

/-- After a boot, in all states, the indicator is on only under exactly the id, the
key and the MAC key under which the last SST_HS3 verified, exactly if every event
keeps it so. -/
theorem indicator_truthful_iff (env : PicoEnv) (flash : Flash)
    (es : List (PicoEnv × PicoEvent)) :
    let start : Watched := ⟨(picoBoot m env flash).1, none⟩
    (∀ n, ((watchedSender m hse).run start (es.take n)).Truthful m) ↔
      (watchedSender m hse).Admissible (KeepsIndicator m) [] start es := by
  intro start
  apply Machine.forall_run_take_iff (P := Watched.Truthful m)
  · intro t w e _ hw
    exact truthful_step_iff hw t e
  · intro hled
    have hoff := led25_picoBoot m env flash
    exact absurd (hled.symm.trans hoff) (by decide)

/-- A KEY frame, a handshake under its key, and another KEY frame. -/
def keyAfterHandshake : List (PicoEnv × PicoEvent) :=
  let macKey : Bytes 32 := List.Vector.replicate 32 3
  [.key (List.Vector.replicate 8 1) (List.Vector.replicate 16 2) macKey,
    .hs1 (hs1Message (List.Vector.replicate 8 1) (Bytes.zero 16)
      (Mbedtls.padPkcs7 (hs1Plain (Bytes.zero 8))) macKey),
    .hs3 (hsBlob (Bytes.zero 16)
      (Mbedtls.padPkcs7 (hsPlain 3 (Bytes.zero 8) (Bytes.zero 8))) macKey),
    .key (List.Vector.replicate 8 4) (List.Vector.replicate 16 5)
      (List.Vector.replicate 32 6)].map fun r => (.salted, .uart r)

/-- The indicator stays on under a key with which nothing was verified. -/
theorem indicator_outlives_key :
    let w := (watchedSender .transparent .idle).run
      ⟨(picoBoot .transparent .salted Flash.erased).1, none⟩
      keyAfterHandshake
    w.pico.led25 = true ∧
      w.verified = some (List.Vector.replicate 8 1, List.Vector.replicate 16 2,
        List.Vector.replicate 32 3) ∧
      (w.pico.keyStore .transparent).triple = (List.Vector.replicate 8 4,
        List.Vector.replicate 16 5, List.Vector.replicate 32 6) ∧
      ¬ w.Truthful .transparent := by
  decide +kernel

end LifiAuth
