import LifiAuth.Dash.Handlers

/-!
# Keys by id

`ask_receiver` looks a peer's key up by its id, first in its key list and, once Auth has
answered, in the list with Auth's key added.  Both lookups compare 32 bits of the id.
`dash_receiver` takes what `get_session_key_by_ID` returns for a force request, and
compares the ids only for a status message.
-/

namespace LifiAuth

/-! ## The lookup of ask_receiver -/

/-- What `get_session_key_by_ID_fixed` uses of the sst-c-api submodule. -/
structure KeyListApi where
  convertSkidBufToInt : Bytes 8 → UInt32
  findSessionKey : UInt32 → List SessionKey → ℤ
  addSessionKeyToList : SessionKey → List SessionKey → List SessionKey
  maxPurposeLength : ℕ

/-- `find_session_key` returns an index whose id converts to the one it was given, or a
negative number. -/
structure KeyListApi.Lawful (api : KeyListApi) : Prop where
  find : ∀ keyId keys, 0 ≤ api.findSessionKey keyId keys →
    ∃ k, keys[(api.findSessionKey keyId keys).toNat]? = some k ∧
      api.convertSkidBufToInt k.keyId = keyId

/-- The loop over the id: `(target_id << 8) | target_session_key_id[i]`. -/
def targetId (id : Bytes 8) : UInt64 :=
  id.toList.foldl (fun acc b => (acc <<< 8) ||| b.toUInt64) 0

/-- `(unsigned int)target_id`. -/
def lookupId (id : Bytes 8) : UInt32 :=
  (targetId id).toUInt32

/-- The purpose `\x7b"keyId":%llu\x7d`, as much of it as fits. -/
def keyIdRequest (maxPurposeLength : ℕ) (id : Bytes 8) : List UInt8 :=
  (ascii "\x7b\"keyId\":" ++ decimal (targetId id).toNat ++ ascii "\x7d").take
    (maxPurposeLength - 1)

/-- The entry that the lookup points to. -/
def KeyListApi.lookup (api : KeyListApi) (id : Bytes 8) (keys : List SessionKey) :
    Option SessionKey :=
  let idx := api.findSessionKey (lookupId id) keys
  if 0 ≤ idx then some (keys.getD idx.toNat SessionKey.zero) else none

/-- The key, the list and the purpose after `get_session_key_by_ID_fixed`, where `auth` is
the answer of `send_session_key_req_via_TCP` to a purpose. -/
def getSessionKeyByIdFixed (api : KeyListApi) (auth : List UInt8 → KeyList)
    (id : Bytes 8) (keyList : KeyList) (purpose : List UInt8) :
    Option SessionKey × KeyList × List UInt8 :=
  match keyList with
  | none => (none, none, purpose)
  | some keys =>
      match api.lookup id keys with
      | some found => (some found, some keys, purpose)
      | none =>
          let purpose := keyIdRequest api.maxPurposeLength id
          match auth purpose with
          | none | some [] => (none, some keys, purpose)
          | some (k :: _) =>
              let keys := api.addSessionKeyToList k keys
              (api.lookup id keys, some keys, purpose)

/-! ## The key id branch of ask_receiver -/

/-- The variables of its `main` that the branch uses. -/
structure Ask where
  fdOpen : Bool
  sKey : SessionKey
  keyValid : Bool
  keyList : KeyList
  state : ReceiverState
  sstEntityNonce : Bytes 8
  lastLifiId : Bytes 8
  lifiIdSeen : Bool
  purpose : List UInt8

/-- What the branch gets from outside. -/
structure AskEnv where
  auth : List UInt8 → KeyList
  hs : HsEntropy
  writes : ℕ → Option ℕ
  /-- The memory behind a payload that is shorter than a key id. -/
  stack : Bytes 8

inductive AskOut where
  /-- `✓ Switched to LiFi Key.` -/
  | adopted (key : SessionKey)
  /-- Bytes written to the Pico. -/
  | tx (bytes : List UInt8)

/-- The handshake with the key just adopted, in whatever state the receiver is. -/
def Ask.startHandshake (sst : SstApi) (env : AskEnv) (a : Ask) : Ask × List AskOut :=
  if a.fdOpen then
    let call := sst.parseHandshake1 a.sKey env.hs
    let a := { a with sstEntityNonce := call.2 }
    match call.1 with
    | none => (a, [])
    | some hs1 =>
        if hs1.length ≠ sstHs1PayloadSize then (a, [])
        else
          let (sent, ok) :=
            writeChain env.writes 0 [txHeader msgTypeSstHs1 hs1.length, hs1]
          if ok then ({ a with state := .waitingForSstHs2 }, [.tx sent])
          else ({ a with sstEntityNonce := Bytes.zero 8 }, [.tx sent])
  else (a, [])

/-- The peer id is stored; a payload shorter than an id is copied with the memory
behind it. -/
def Ask.noteId (env : AskEnv) (payload : List UInt8) (a : Ask) : Ask :=
  { a with
    lastLifiId := ⟨(payload ++ env.stack.toList).take 8, by
      have := env.stack.toList_length
      simp⟩
    lifiIdSeen := true }

/-- The `MSG_TYPE_KEY_ID_ONLY` branch after its CRC check. -/
def askKeyIdOnly (api : KeyListApi) (sst : SstApi) (env : AskEnv)
    (payload : List UInt8) (a : Ask) : Ask × List AskOut :=
  let a := a.noteId env payload
  let fetched :=
    getSessionKeyByIdFixed api env.auth a.lastLifiId a.keyList a.purpose
  let a : Ask := { a with keyList := fetched.2.1, purpose := fetched.2.2 }
  match fetched.1 with
  | none => (a, [])
  | some found =>
      let begun := Ask.startHandshake sst env { a with sKey := found, keyValid := true }
      (begun.1, .adopted found :: begun.2)

/-! ## Lookups that hit another key -/

/-- The lookup points to a key that has the 32 bits but another id. -/
def KeyListApi.Mistakes (api : KeyListApi) (id : Bytes 8) (keys : List SessionKey) :
    Prop :=
  let idx := api.findSessionKey (lookupId id) keys
  0 ≤ idx ∧ ∃ k ∈ keys[idx.toNat]?,
    api.convertSkidBufToInt k.keyId = lookupId id ∧ k.keyId ≠ id

/-- `get_session_key_by_ID_fixed` mistakes no key for the one with the id: neither in the
list nor, if nothing is found there and Auth answers with keys, in the list that the
first of them was added to. -/
def KeyListApi.LooksUpRight (api : KeyListApi) (auth : List UInt8 → KeyList)
    (id : Bytes 8) (keyList : KeyList) : Prop :=
  ∀ keys ∈ keyList, ¬ api.Mistakes id keys ∧
    (api.findSessionKey (lookupId id) keys < 0 →
      ∀ k more, auth (keyIdRequest api.maxPurposeLength id) = some (k :: more) →
        ¬ api.Mistakes id (api.addSessionKeyToList k keys))

section Lookup

variable {api : KeyListApi}

theorem KeyListApi.lookup_eq_none_iff (id : Bytes 8) (keys : List SessionKey) :
    api.lookup id keys = none ↔ api.findSessionKey (lookupId id) keys < 0 := by
  rw [KeyListApi.lookup, ← not_le]
  simp only [ite_eq_right_iff, reduceCtorEq, imp_false]

theorem KeyListApi.Lawful.lookup_right_iff (hapi : api.Lawful) (id : Bytes 8)
    (keys : List SessionKey) :
    (∀ k ∈ api.lookup id keys, k.keyId = id) ↔ ¬ api.Mistakes id keys := by
  rw [KeyListApi.Mistakes, KeyListApi.lookup]
  split
  · next hidx =>
      obtain ⟨found, hfound, hconvert⟩ := hapi.find _ _ hidx
      rw [List.getD_eq_getElem?_getD, hfound, Option.getD_some]
      simp [hidx, hconvert]
  · next hidx => simp [hidx]

/-- Only the id itself has its 32 bits. -/
def KeyListApi.Distinct (api : KeyListApi) (id : Bytes 8) (keys : List SessionKey) :
    Prop :=
  ∀ k ∈ keys, api.convertSkidBufToInt k.keyId = lookupId id → k.keyId = id

theorem KeyListApi.Distinct.not_mistakes {id : Bytes 8} {keys : List SessionKey}
    (hdistinct : api.Distinct id keys) : ¬ api.Mistakes id keys := by
  rintro ⟨-, k, hk, hconvert, hne⟩
  exact hne (hdistinct k (List.mem_of_getElem? hk) hconvert)

/-- No key is mistaken where the 32 bits tell the ids apart, whatever the lookup picks. -/
theorem KeyListApi.looksUpRight_of_distinct {auth : List UInt8 → KeyList} {id : Bytes 8}
    {keyList : KeyList} (hlist : ∀ keys ∈ keyList, api.Distinct id keys)
    (hadded : ∀ keys ∈ keyList, ∀ k more,
      auth (keyIdRequest api.maxPurposeLength id) = some (k :: more) →
      api.Distinct id (api.addSessionKeyToList k keys)) :
    api.LooksUpRight auth id keyList := by
  intro keys hkeys
  refine ⟨(hlist keys hkeys).not_mistakes, ?_⟩
  intro _ k more hauth
  exact (hadded keys hkeys k more hauth).not_mistakes

theorem KeyListApi.Lawful.getSessionKeyByIdFixed_right_iff (hapi : api.Lawful)
    (auth : List UInt8 → KeyList) (id : Bytes 8) (keyList : KeyList)
    (purpose : List UInt8) :
    (∀ k ∈ (getSessionKeyByIdFixed api auth id keyList purpose).1, k.keyId = id) ↔
      api.LooksUpRight auth id keyList := by
  cases keyList with
  | none => simp [getSessionKeyByIdFixed, KeyListApi.LooksUpRight]
  | some keys =>
      rw [getSessionKeyByIdFixed, KeyListApi.LooksUpRight]
      simp only [Option.mem_some_iff, forall_eq', ← hapi.lookup_right_iff,
        ← KeyListApi.lookup_eq_none_iff]
      cases hfirst : api.lookup id keys with
      | some found => simp
      | none =>
          simp only [forall_true_left]
          split
          · next hauth => simp [hauth]
          · next hauth => simp [hauth]
          · next k more hauth =>
              rw [hauth]
              constructor
              · intro h
                refine ⟨nofun, ?_⟩
                rintro k' more' heq
                obtain ⟨rfl, -⟩ := List.cons.inj (Option.some.inj heq)
                exact h
              · intro h
                exact h.2 k more rfl

end Lookup

/-! ## What the branch adopts -/

section Branch

variable {api : KeyListApi} {sst : SstApi} {env : AskEnv}

variable (sst env) in
/-- The handshake leaves all but the nonce and the state. -/
theorem Ask.startHandshake_eq (a : Ask) :
    ∃ nonce state, (Ask.startHandshake sst env a).1 =
      { a with sstEntityNonce := nonce, state := state } := by
  rw [Ask.startHandshake]
  split
  · simp only
    split
    · exact ⟨_, _, rfl⟩
    · split
      · exact ⟨_, _, rfl⟩
      · split
        · exact ⟨_, _, rfl⟩
        · exact ⟨_, _, rfl⟩
  · exact ⟨_, _, rfl⟩

theorem Ask.adopted_notMem_startHandshake (a : Ask) (k : SessionKey) :
    AskOut.adopted k ∉ (Ask.startHandshake sst env a).2 := by
  rw [Ask.startHandshake]
  split
  · simp only
    split
    · simp
    · split
      · simp
      · split
        · simp
        · simp
  · simp

theorem Ask.noteId_toList (id : Bytes 8) (rest : List UInt8) (a : Ask) :
    a.noteId env (id.toList ++ rest) =
      { a with lastLifiId := id, lifiIdSeen := true } := by
  have hid (h) : (⟨(id.toList ++ rest ++ env.stack.toList).take 8, h⟩ : Bytes 8) =
      id := by
    apply Bytes.ext_toList
    rw [Bytes.toList_mk, List.append_assoc, List.take_left' id.toList_length]
  rw [Ask.noteId, hid]

variable (api sst env) in
/-- The branch adopts what the lookup gives, and puts no other key in use. -/
theorem askKeyIdOnly_adopts (id : Bytes 8) (rest : List UInt8) (a : Ask) :
    let found := (getSessionKeyByIdFixed api env.auth id a.keyList a.purpose).1
    let step := askKeyIdOnly api sst env (id.toList ++ rest) a
    (∀ k, AskOut.adopted k ∈ step.2 ↔ k ∈ found) ∧
      step.1.sKey = found.getD a.sKey ∧
      step.1.keyValid = (found.isSome || a.keyValid) := by
  rw [askKeyIdOnly, Ask.noteId_toList]
  simp only
  split
  · next hfound => simp [hfound]
  · next found hfound =>
      refine ⟨fun k => ?_, ?_⟩
      · rw [List.mem_cons, hfound, Option.mem_some_iff, AskOut.adopted.injEq]
        refine ⟨fun h => ?_, fun h => Or.inl h.symm⟩
        exact (h.resolve_right (Ask.adopted_notMem_startHandshake _ k)).symm
      · obtain ⟨nonce, state, hafter⟩ := Ask.startHandshake_eq sst env
          { a with
            lastLifiId := id
            lifiIdSeen := true
            keyList := (getSessionKeyByIdFixed api env.auth id a.keyList a.purpose).2.1
            purpose := (getSessionKeyByIdFixed api env.auth id a.keyList a.purpose).2.2
            sKey := found
            keyValid := true }
        rw [hafter, hfound]
        exact ⟨rfl, rfl⟩

end Branch

/-! ## The targeted fetch of dash_receiver -/

/-- A force request that names a key; the material that did not come is not used. -/
def RemoteForce.targeted (id : Bytes 8) (cipherKey : Bytes 16) (macKey : Bytes 32) :
    RemoteForce where
  hasTarget := true
  targetId := id
  hasMaterial := false
  cipherKey := cipherKey
  macKey := macKey

/-- The `memcmp` of the fetched key with the id that was asked for; its result only goes
into a status message. -/
def RemoteForce.matches (remote : RemoteForce) (found : SessionKey) : Bool :=
  found.keyId == remote.targetId

/-- No key is counted as taken, and the one in use stays. -/
def KeepsKey (d d' : Dash) : Prop :=
  d'.stats.keysConsumed = d.stats.keysConsumed ∧ d'.sKey = d.sKey ∧ d'.keyValid = d.keyValid

/-- A fetched key is taken over whatever its id is. -/
theorem dashStep_targeted_some (m : Mbedtls) (sst : SstApi) (d : Dash) {env : DashEnv}
    {id : Bytes 8} {found : SessionKey} (h : env.keyById id = some found)
    (cipherKey : Bytes 16) (macKey : Bytes 32) :
    let d' := (dashStep m sst d env (.key (.f (.targeted id cipherKey macKey)))).1
    d'.sKey = found ∧ d'.stats.keysConsumed = d.stats.keysConsumed + 1 := by
  have hforced : handleForce env (.targeted id cipherKey macKey) d =
      forceAdopt env found { d with keyList := env.keyListAfterById } := by
    simp [handleForce, RemoteForce.targeted, h]
  simp only [dashStep, handleKey, hforced]
  exact ⟨rfl, rfl⟩

theorem dashStep_targeted_none (m : Mbedtls) (sst : SstApi) (d : Dash) {env : DashEnv}
    {id : Bytes 8} (h : env.keyById id = none) (cipherKey : Bytes 16) (macKey : Bytes 32) :
    KeepsKey d (dashStep m sst d env (.key (.f (.targeted id cipherKey macKey)))).1 := by
  have hforced : handleForce env (.targeted id cipherKey macKey) d =
      ({ d with keyList := env.keyListAfterById }, []) := by
    simp [handleForce, RemoteForce.targeted, h]
  simp only [dashStep, handleKey, hforced]
  exact ⟨rfl, rfl, rfl⟩

/-- After a targeted request the key in use has the requested id, unless none was taken,
exactly if no key was fetched that does not match. -/
theorem dashStep_targeted_iff (m : Mbedtls) (sst : SstApi) (d : Dash) (env : DashEnv)
    (id : Bytes 8) (cipherKey : Bytes 16) (macKey : Bytes 32) :
    let d' := (dashStep m sst d env (.key (.f (.targeted id cipherKey macKey)))).1
    KeepsKey d d' ∨ d'.sKey.keyId = id ↔
      ∀ found ∈ env.keyById id,
        (RemoteForce.targeted id cipherKey macKey).matches found = true := by
  intro d'
  cases h : env.keyById id with
  | none =>
      refine iff_of_true (Or.inl (dashStep_targeted_none m sst d h cipherKey macKey)) ?_
      intro found hfound
      cases hfound
  | some found =>
      obtain ⟨hkey, hcount⟩ := dashStep_targeted_some m sst d h cipherKey macKey
      have htaken : ¬ KeepsKey d d' := fun hkeeps =>
        Nat.succ_ne_self _ (hcount.symm.trans hkeeps.1)
      rw [or_iff_right htaken, show d'.sKey = found from hkey]
      simp only [Option.mem_some_iff, forall_eq', RemoteForce.matches, beq_iff_eq]
      rfl

/-! ## Both receivers -/

/-- `ask_receiver` adopts only keys with the requested id exactly if its lookups mistake
no key, and `dash_receiver` exactly if it was given no key that does not match. -/
theorem adopts_requested_key_iff {api : KeyListApi} (hapi : api.Lawful) (sst : SstApi)
    (id : Bytes 8) (rest : List UInt8) (env : AskEnv) (a : Ask) (m : Mbedtls) (d : Dash)
    (denv : DashEnv) (cipherKey : Bytes 16) (macKey : Bytes 32) :
    let d' := (dashStep m sst d denv (.key (.f (.targeted id cipherKey macKey)))).1
    ((∀ k, AskOut.adopted k ∈ (askKeyIdOnly api sst env (id.toList ++ rest) a).2 →
        k.keyId = id) ↔ api.LooksUpRight env.auth id a.keyList) ∧
      (KeepsKey d d' ∨ d'.sKey.keyId = id ↔
        ∀ found ∈ denv.keyById id,
          (RemoteForce.targeted id cipherKey macKey).matches found = true) := by
  intro d'
  refine ⟨?_, dashStep_targeted_iff m sst d denv id cipherKey macKey⟩
  obtain ⟨hadopted, -⟩ := askKeyIdOnly_adopts api sst env id rest a
  simp only [hadopted]
  exact hapi.getSessionKeyByIdFixed_right_iff env.auth id a.keyList a.purpose

/-! ## Two ids with the same 32 bits -/

/-- List functions on ids that fit 32 bits: the first match is found, keys are added at
the end. -/
def KeyListApi.reference : KeyListApi where
  convertSkidBufToInt := lookupId
  findSessionKey keyId keys :=
    match keys.findIdx? fun k => lookupId k.keyId = keyId with
    | some idx => idx
    | none => -1
  addSessionKeyToList k keys := keys ++ [k]
  maxPurposeLength := 64

theorem KeyListApi.lawful_reference : KeyListApi.reference.Lawful where
  find := by
    intro keyId keys hidx
    simp only [KeyListApi.reference] at hidx ⊢
    split
    · next idx hfound =>
        obtain ⟨hlt, hk, -⟩ := List.findIdx?_eq_some_iff_getElem.mp hfound
        refine ⟨keys[idx], ?_, of_decide_eq_true hk⟩
        rw [Int.toNat_natCast, List.getElem?_eq_getElem hlt]
    · next hfound =>
        rw [hfound] at hidx
        exact absurd hidx (by decide)

/-- The key with id 5. -/
def keyFive : SessionKey :=
  ⟨⟨[0, 0, 0, 0, 0, 0, 0, 5], rfl⟩, Bytes.zero 32, Bytes.zero 32⟩

/-- A receiver that has it. -/
def askWithKeyFive : Ask where
  fdOpen := true
  sKey := SessionKey.zero
  keyValid := false
  keyList := some [keyFive]
  state := .idle
  sstEntityNonce := Bytes.zero 8
  lastLifiId := Bytes.zero 8
  lifiIdSeen := false
  purpose := []

/-- Auth does not answer. -/
def AskEnv.bare : AskEnv where
  auth _ := none
  hs := ⟨Bytes.zero 8, Bytes.zero 16⟩
  writes _ := none
  stack := Bytes.zero 8

/-- Auth answers every request for a key by its id with the key with id 5. -/
def fiveForAll : DashEnv :=
  { DashEnv.bare with keyById := fun _ => some keyFive }

/-- `dash_receiver`, just started, is told to fetch the key with that id. -/
def forcedTo (id : Bytes 8) : Dash :=
  (dashStep .transparent .failing
    (Dash.start true none (List.Vector.replicate 64 (Bytes.zero 12))) fiveForAll
    (.key (.f (.targeted id (Bytes.zero 16) (Bytes.zero 32))))).1

theorem adopts_requested_key_iff_keyFive :
    KeyListApi.reference.Lawful ∧
      (∀ k, AskOut.adopted k ∈ (askKeyIdOnly .reference .failing .bare
        (keyFive.keyId.toList ++ []) askWithKeyFive).2 → k.keyId = keyFive.keyId) ∧
      (KeepsKey (Dash.start true none (List.Vector.replicate 64 (Bytes.zero 12)))
          (forcedTo keyFive.keyId) ∨ (forcedTo keyFive.keyId).sKey.keyId = keyFive.keyId) := by
  obtain ⟨hask, hdash⟩ := adopts_requested_key_iff KeyListApi.lawful_reference .failing
    keyFive.keyId [] .bare askWithKeyFive .transparent
    (Dash.start true none (List.Vector.replicate 64 (Bytes.zero 12))) fiveForAll
    (Bytes.zero 16) (Bytes.zero 32)
  refine ⟨KeyListApi.lawful_reference, hask.mpr ?_, hdash.mpr ?_⟩
  · refine KeyListApi.looksUpRight_of_distinct ?_ ?_
    · intro keys hkeys k hk _
      obtain rfl := Option.mem_some_iff.mp hkeys
      rw [List.mem_singleton.mp hk]
    · intro keys _ k more hauth
      cases hauth
  · intro found hfound
    rw [← Option.mem_some_iff.mp hfound]
    exact beq_self_eq_true _

/-- The peer names the id `2 ^ 32 + 5`, and the key with id 5 is adopted. -/
theorem adopts_key_with_same_low_word :
    KeyListApi.reference.Lawful ∧ ∃ id : Bytes 8, id ≠ keyFive.keyId ∧
      AskOut.adopted keyFive ∈
        (askKeyIdOnly .reference .failing .bare id.toList askWithKeyFive).2 := by
  refine ⟨KeyListApi.lawful_reference, ⟨[0, 0, 0, 1, 0, 0, 0, 5], rfl⟩, ?_, ?_⟩
  · intro h
    exact absurd (congrArg List.Vector.toList h) (by decide)
  · exact List.mem_cons_self

end LifiAuth
