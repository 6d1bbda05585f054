import LifiAuth.Dash.ActiveKey

/-!
# Coherence of the active key

The key in use is an issued one and the mirrors are its own.  Taking a key over
keeps this; a key that only moves into `s_key` keeps it exactly if it is an issued
key with the id and the MAC key of the one before.
-/

namespace LifiAuth

open Support

variable (m : Mbedtls) (api : SstApi)

/-! ## One step -/

section

variable (Issued : SessionKey → Prop)

/-- An issued key with its own mirrors. -/
def ActiveKey.Coherent (a : ActiveKey) : Prop :=
  Issued a.sKey ∧ a.macKey = a.sKey.macKey ∧
    a.keyIdHex = hexString a.sKey.keyId.toList

instance [DecidablePred Issued] (a : ActiveKey) : Decidable (a.Coherent Issued) :=
  inferInstanceAs (Decidable (_ ∧ _ ∧ _))

/-- A valid key is coherent. -/
def Dash.KeyCoherent (d : Dash) : Prop :=
  d.keyValid = true → d.active.Coherent Issued

instance [DecidablePred Issued] (d : Dash) : Decidable (d.KeyCoherent Issued) :=
  inferInstanceAs (Decidable (_ → _))

/-- What key `n` or an `ACK` puts into `s_key` is an issued key that has the id and
the MAC key of a valid `s_key`. -/
def MovesToMirrored (_ : List DashOut) (d : Dash) (e : DashEnv × DashEvent) : Prop :=
  d.keyValid = true → ∀ k ∈ movedKey m d e.2,
    Issued k ∧ k.macKey = d.sKey.macKey ∧ k.keyId = d.sKey.keyId

instance [DecidablePred Issued] (t : List DashOut) (d : Dash)
    (e : DashEnv × DashEvent) : Decidable (MovesToMirrored m Issued t d e) :=
  inferInstanceAs (Decidable (_ → _))

variable {Issued}

theorem coherent_adopt {k : SessionKey} (hk : Issued k) :
    (ActiveKey.adopt k).Coherent Issued :=
  ⟨hk, rfl, rfl⟩

theorem coherent_move_iff {a : ActiveKey} (ha : a.Coherent Issued)
    (k : SessionKey) :
    (a.move k).Coherent Issued ↔
      Issued k ∧ k.macKey = a.sKey.macKey ∧ k.keyId = a.sKey.keyId := by
  obtain ⟨-, hmac, hid⟩ := ha
  have hhex : hexString a.sKey.keyId.toList = hexString k.keyId.toList ↔
      k.keyId = a.sKey.keyId := by
    constructor
    · intro h
      exact (Bytes.ext_toList (hexString_injective h)).symm
    · intro h
      rw [h]
  simp only [ActiveKey.Coherent, ActiveKey.move, hmac, hid, hhex]
  rw [eq_comm (a := a.sKey.macKey)]

/-- An event does not do both. -/
theorem movedKey_of_adopted {env : DashEnv} {ev : DashEvent} {k : SessionKey}
    (h : adoptedKey env ev = some k) (d : Dash) : movedKey m d ev = none := by
  cases ev with
  | key key =>
      cases key with
      | f remote => rfl
      | _ => cases h
  | timeout => cases h
  | uart r =>
      cases r with
      | frame f =>
          cases f with
          | keyIdOnly payload len => rfl
          | sstHs2 hs2 => cases h
          | data t nonce ciphertext tag => cases h
      | _ => cases h

/-- From a coherent state, a step that takes over issued keys only leads to a
coherent one exactly if no other key moves behind the mirrors. -/
theorem keyCoherent_dashStep_iff {d : Dash} (hd : d.KeyCoherent Issued)
    {e : DashEnv × DashEvent} (he : ∀ k ∈ adoptedKey e.1 e.2, Issued k)
    (t : List DashOut) :
    (dashStep m api d e.1 e.2).1.KeyCoherent Issued ↔
      MovesToMirrored m Issued t d e := by
  have hactive := active_dashStep m api d e.1 e.2
  have hcoherent : (dashStep m api d e.1 e.2).1.KeyCoherent Issued ↔
      ((dashStep m api d e.1 e.2).1.active.keyValid = true →
        (dashStep m api d e.1 e.2).1.active.Coherent Issued) := Iff.rfl
  rw [hcoherent, hactive, MovesToMirrored, ActiveKey.next]
  cases hadopt : adoptedKey e.1 e.2 with
  | some k =>
      rw [movedKey_of_adopted m hadopt d]
      have hk : Issued k := he k hadopt
      simp [coherent_adopt hk]
  | none =>
      cases hmove : movedKey m d e.2 with
      | none =>
          have hkept : d.active.keyValid = true → d.active.Coherent Issued := hd
          simpa using hkept
      | some k =>
          simp only [Option.elim_none, Option.elim_some, Option.mem_def, Option.some_inj,
        forall_eq']
          have hvalid : (d.active.move k).keyValid = d.keyValid := rfl
          rw [hvalid]
          constructor
          · intro h hd'
            exact (coherent_move_iff (hd hd') k).mp (h hd')
          · intro h hd'
            exact (coherent_move_iff (hd hd') k).mpr (h hd')

end

/-! ## Runs -/

section

variable {m api} {Issued : SessionKey → Prop}

theorem keyCoherent_start (fdOpen : Bool) {sessionKeys : KeyList}
    (hkeys : ∀ k ∈ sessionKeys.bind List.head?, Issued k)
    (memory : List.Vector (Bytes 12) 64) :
    (Dash.start fdOpen sessionKeys memory).KeyCoherent Issued := by
  intro hvalid
  cases hhead : sessionKeys.bind List.head? with
  | none => simp [Dash.start, hhead] at hvalid
  | some k =>
      have hactive : (Dash.start fdOpen sessionKeys memory).active = .adopt k := by
        simp [Dash.active, Dash.start, hhead, ActiveKey.adopt]
      rw [hactive]
      exact coherent_adopt (hkeys k hhead)

/-- From a start with an issued key and with issued keys only to take over, all
states are coherent exactly if key `n` and `ACK` only ever put an issued key with
the active id and MAC key into `s_key`. -/
theorem activeKey_coherent_iff (fdOpen : Bool) {sessionKeys : KeyList}
    (hkeys : ∀ k ∈ sessionKeys.bind List.head?, Issued k)
    (memory : List.Vector (Bytes 12) 64) {es : List (DashEnv × DashEvent)}
    (hes : ∀ e ∈ es, ∀ k ∈ adoptedKey e.1 e.2, Issued k) :
    (∀ n, ((dashReceiver m api).run (Dash.start fdOpen sessionKeys memory)
        (es.take n)).KeyCoherent Issued) ↔
      (dashReceiver m api).Admissible (MovesToMirrored m Issued) []
        (Dash.start fdOpen sessionKeys memory) es := by
  apply Machine.forall_run_take_iff (P := Dash.KeyCoherent Issued) _ []
    (keyCoherent_start fdOpen hkeys memory)
  intro t d e he hd
  exact keyCoherent_dashStep_iff m api hd (hes e he) t

/-! ## Two keys -/

def keyOne : SessionKey :=
  ⟨List.Vector.replicate 8 1, List.Vector.replicate 32 2, List.Vector.replicate 32 3⟩

def keyTwo : SessionKey :=
  ⟨List.Vector.replicate 8 4, List.Vector.replicate 32 5, List.Vector.replicate 32 6⟩

/-- The receiver with both keys in its list. -/
def twoKeys : Dash :=
  Dash.start true (some [keyOne, keyTwo])
    (List.Vector.replicate 64 (Bytes.zero 12))

/-- Key `n` leaves the mirrors of the first key. -/
theorem rotate_leaves_mirrors :
    (∀ k ∈ (some [keyOne, keyTwo]).bind List.head?,
        k ∈ [keyOne, keyTwo]) ∧
      (∀ k ∈ adoptedKey .bare (.key .n), k ∈ [keyOne, keyTwo]) ∧
      ¬ ((dashReceiver .transparent .failing).run twoKeys
        [(.bare, .key .n)]).KeyCoherent (· ∈ [keyOne, keyTwo]) := by
  decide +kernel

/-- Key `f` fetches the second key; it is then the only one in the list, and key `n` stays
on it. -/
def fetchThenRotate : List (DashEnv × DashEvent) :=
  [({ DashEnv.bare with sessionKeys := some [keyTwo] },
      .key (.f ⟨false, Bytes.zero 8, false, Bytes.zero 16, Bytes.zero 32⟩)),
    (.bare, .key .n)]

theorem coherent_fetchThenRotate :
    ((dashReceiver .transparent .failing).run twoKeys
      (fetchThenRotate.take 2)).KeyCoherent (· ∈ [keyOne, keyTwo]) := by
  refine (activeKey_coherent_iff true ?_ _ ?_).mpr ?_ 2
  · decide +kernel
  · decide +kernel
  · decide +kernel

end

end LifiAuth
