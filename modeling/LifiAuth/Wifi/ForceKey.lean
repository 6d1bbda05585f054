import LifiAuth.Keys.Receiver
import LifiAuth.Wifi.Dashboard
import Mathlib.Data.List.TakeWhile

/-!
# Pushing a key to dash_receiver

The dashboard posts its key as JSON; `handle_force_key_request` parses the body and
leaves it for the main loop, whose queue drain turns it into a key press `f` with the
key as its argument.
-/

namespace LifiAuth

open Support

/-! ## The mailbox -/

/-- The globals behind `g_force_key_mutex`. -/
structure ForceKeyMailbox where
  requested : Bool
  targetId : Bytes 8
  hasTarget : Bool
  cipherKey : Bytes 16
  macKey : Bytes 32
  hasMaterial : Bool

/-- The loop of `parse_hex_field` over the pairs of characters. -/
def scanHexPairs : (n : ℕ) → List UInt8 → Option (Bytes n)
  | 0, _ => some List.Vector.nil
  | n + 1, hex =>
      match sscanfHexByte hex, scanHexPairs n (hex.drop 2) with
      | some b, some bs => some (b ::ᵥ bs)
      | _, _ => none

/-- `"name"`, cut to what `pattern[32]` holds. -/
def fieldPattern (name : List UInt8) : List UInt8 :=
  (34 :: name ++ [34]).take 31

/-- `parse_hex_field`. -/
def parseHexField (body name : List UInt8) (outSize : ℕ) :
    Option (Bytes outSize) :=
  if outSize * 2 ≥ 2 * sstMacKeySize + 1 then none
  else
    match strstr (fieldPattern name) body with
    | none => none
    | some p =>
        match strchr 58 (p.drop (fieldPattern name).length) with
        | none => none
        | some p =>
            let p := p.tail.dropWhile fun c => c == 32 || c == 34
            let hex := (p.takeWhile fun c => c != 34).take (outSize * 2)
            if hex.length ≠ outSize * 2 then none
            else scanHexPairs outSize hex

/-- `handle_force_key_request`: what was parsed is left for the main loop. -/
def handleForceKeyRequest (body : List UInt8) (g : ForceKeyMailbox) :
    ForceKeyMailbox :=
  let body := cstr body
  let target := parseHexField body (ascii "key_id") sstKeyIdSize
  let material :=
    match target, parseHexField body (ascii "cipher_key") sstKeySize,
        parseHexField body (ascii "mac_key") sstMacKeySize with
    | some _, some cipherKey, some macKey => some (cipherKey, macKey)
    | _, _, _ => none
  { requested := true
    targetId := target.getD g.targetId
    hasTarget := target.isSome
    cipherKey := (material.map Prod.fst).getD g.cipherKey
    macKey := (material.map Prod.snd).getD g.macKey
    hasMaterial := material.isSome }

/-- The queue drain of the main loop, in a pass without a key press. -/
def drainForceKey (g : ForceKeyMailbox) : Option KeyPress × ForceKeyMailbox :=
  if g.requested then
    (some (.f
      { hasTarget := g.hasTarget
        targetId := g.targetId
        hasMaterial := g.hasMaterial
        cipherKey := g.cipherKey
        macKey := g.macKey }), { g with requested := false })
  else (none, g)

/-! ## Reading the fields back -/

theorem scanHexPairs_hexString {n : ℕ} (bytes : Bytes n) :
    scanHexPairs n (hexString bytes.toList) = some bytes := by
  induction n with
  | zero => rw [List.Vector.eq_nil bytes]; rfl
  | succ n ih =>
      have hcons : hexString bytes.toList =
          hexDigit (bytes.head.toNat / 16) :: hexDigit (bytes.head.toNat % 16) ::
            hexString bytes.tail.toList := by
        conv_lhs => rw [← List.Vector.cons_head_tail bytes, List.Vector.toList_cons]
        rfl
      rw [hcons, scanHexPairs, sscanfHexByte_hexDigits, List.drop_succ_cons,
        List.drop_succ_cons, List.drop_zero, ih bytes.tail]
      simp only [List.Vector.cons_head_tail]

/-- A field of the posted JSON, from its name on. -/
def jsonHexField (name bytes rest : List UInt8) : List UInt8 :=
  fieldPattern name ++ (58 :: 32 :: 34 :: (hexString bytes ++ 34 :: rest))

/-- Where the search finds the field, its bytes are read. -/
theorem parseHexField_of_strstr {body name rest : List UInt8} {n : ℕ}
    (bytes : Bytes (n + 1)) (hn : (n + 1) * 2 < 2 * sstMacKeySize + 1)
    (hfound : strstr (fieldPattern name) body =
      some (jsonHexField name bytes.toList rest)) :
    parseHexField body name (n + 1) = some bytes := by
  have hquote : ∀ c ∈ hexString bytes.toList, (c != 34) = true := by
    intro c hc
    have hdigit := hexValue_of_mem_hexString hc
    rw [bne_iff_ne]
    rintro rfl
    cases hdigit
  have hskip : ∀ c ∈ hexString bytes.toList, (c == 32 || c == 34) = false := by
    intro c hc
    have hdigit := hexValue_of_mem_hexString hc
    rw [Bool.or_eq_false_iff, beq_eq_false_iff_ne, beq_eq_false_iff_ne]
    constructor
    · rintro rfl
      cases hdigit
    · rintro rfl
      cases hdigit
  have hlen : (hexString bytes.toList).length = (n + 1) * 2 := by
    rw [length_hexString, bytes.toList_length, Nat.mul_comm]
  have hdrop : (32 :: 34 :: (hexString bytes.toList ++ 34 :: rest)).dropWhile
      (fun c => c == 32 || c == 34) = hexString bytes.toList ++ 34 :: rest := by
    obtain ⟨c, hex, hhex⟩ := List.exists_cons_of_length_pos
      (l := hexString bytes.toList) (by omega)
    have hc := hskip c (hhex ▸ List.mem_cons_self)
    rw [hhex]
    simp [hc]
  have htake : ((hexString bytes.toList ++ 34 :: rest).takeWhile
      fun c => c != 34).take ((n + 1) * 2) = hexString bytes.toList := by
    rw [List.takeWhile_append_of_pos hquote, List.takeWhile_cons_of_neg (by simp),
      List.append_nil, ← hlen, List.take_length]
  rw [parseHexField, if_neg (Nat.not_le.mpr hn), hfound]
  simp only [jsonHexField, List.drop_left, strchr, if_true, List.tail_cons, hdrop,
    htake, hlen, ne_eq, not_true_eq_false, if_false]
  exact scanHexPairs_hexString bytes

/-- A text that is no digit does not start a hexadecimal one. -/
theorem not_prefix_hexString {needle bytes rest : List UInt8} {i : ℕ} {e : UInt8}
    (hi : i < 2 * bytes.length) (he : needle[i]? = some e)
    (hdigit : hexValue e = none) : ¬ needle <+: hexString bytes ++ rest := by
  intro hprefix
  have hlt : i < (hexString bytes).length := by
    rw [length_hexString]
    exact hi
  obtain ⟨s, hs⟩ := hprefix
  have hget : (hexString bytes)[i]? = some e := by
    rw [← List.getElem?_append_left hlt, ← hs, List.getElem?_append_left, he]
    exact (List.getElem?_eq_some_iff.mp he).1
  have hsome := hexValue_of_mem_hexString (List.mem_of_getElem? hget)
  rw [hdigit] at hsome
  cases hsome

theorem not_cons_prefix {c d : UInt8} (h : c ≠ d) (s t : List UInt8) :
    ¬ c :: s <+: d :: t := by
  intro hprefix
  exact h (List.cons_prefix_cons.mp hprefix).1

/-- A search for one name passes over the field of another one. -/
theorem strstr_skipField {c d e : UInt8} {name other bytes rest : List UInt8}
    (hname : fieldPattern (c :: name) = 34 :: c :: (name ++ [34]))
    (hother : fieldPattern (d :: other) = 34 :: d :: (other ++ [34]))
    (hquote : 34 ∉ d :: other) (hcd : c ≠ d) (hcolon : c ≠ 58) (hcomma : c ≠ 44)
    {i : ℕ} (hi : i < 2 * bytes.length) (he : (c :: (name ++ [34]))[i]? = some e)
    (hdigit : hexValue e = none) :
    strstr (fieldPattern (c :: name))
        (jsonHexField (d :: other) bytes (44 :: rest)) =
      strstr (fieldPattern (c :: name)) (44 :: rest) := by
  have hfield : jsonHexField (d :: other) bytes (44 :: rest) =
      34 :: ((d :: other) ++ 34 :: ([58, 32] ++ 34 :: (hexString bytes ++
        34 :: 44 :: rest))) := by
    simp [jsonHexField, hother]
  have hhex : 34 ∉ hexString bytes := by
    intro hmem
    cases hexValue_of_mem_hexString hmem
  rw [hname, hfield]
  generalize hneedle : c :: (name ++ [34]) = needle at he ⊢
  have hnot {f : UInt8} (hf : c ≠ f) (s : List UInt8) : ¬ needle <+: f :: s := by
    rw [← hneedle]
    exact not_cons_prefix hf _ s
  calc strstr (34 :: needle) (34 :: ((d :: other) ++ 34 :: ([58, 32] ++
          34 :: (hexString bytes ++ 34 :: 44 :: rest))))
      = strstr (34 :: needle) ((d :: other) ++ 34 :: ([58, 32] ++
          34 :: (hexString bytes ++ 34 :: 44 :: rest))) := strstr_cons (hnot hcd _)
    _ = strstr (34 :: needle) (34 :: ([58, 32] ++
          34 :: (hexString bytes ++ 34 :: 44 :: rest))) := strstr_append hquote _
    _ = strstr (34 :: needle) ([58, 32] ++
          34 :: (hexString bytes ++ 34 :: 44 :: rest)) :=
        strstr_cons (hnot hcolon _)
    _ = strstr (34 :: needle) (34 :: (hexString bytes ++ 34 :: 44 :: rest)) :=
        strstr_append (by decide) _
    _ = strstr (34 :: needle) (hexString bytes ++ 34 :: 44 :: rest) :=
        strstr_cons (not_prefix_hexString hi he hdigit)
    _ = strstr (34 :: needle) (34 :: 44 :: rest) := strstr_append hhex _
    _ = strstr (34 :: needle) (44 :: rest) := strstr_cons (hnot hcomma _)

/-! ## Convergence -/

/-- The posted body, field by field. -/
theorem forceKeyBody_eq (id : Bytes 8) (key : Bytes 16) (macKey : Bytes 32) :
    forceKeyBody (hexString id.toList) key.toList macKey =
      123 :: jsonHexField (ascii "key_id") id.toList
        (44 :: 32 :: jsonHexField (ascii "cipher_key") key.toList
          (44 :: 32 :: jsonHexField (ascii "mac_key") macKey.toList [125])) := by
  have hopen : ascii "\x7b\"key_id\": \"" =
      123 :: (fieldPattern (ascii "key_id") ++ [58, 32, 34]) := by decide
  have hcipher : ascii "\", \"cipher_key\": \"" =
      34 :: 44 :: 32 :: (fieldPattern (ascii "cipher_key") ++ [58, 32, 34]) := by
    decide
  have hmac : ascii "\", \"mac_key\": \"" =
      34 :: 44 :: 32 :: (fieldPattern (ascii "mac_key") ++ [58, 32, 34]) := by
    decide
  have hclose : ascii "\"\x7d" = [34, 125] := by decide
  rw [forceKeyBody, hopen, hcipher, hmac, hclose]
  simp [jsonHexField]

section

variable (id : Bytes 8) (key : Bytes 16) (macKey : Bytes 32)

theorem cstr_forceKeyBody :
    cstr (forceKeyBody (hexString id.toList) key.toList macKey) =
      forceKeyBody (hexString id.toList) key.toList macKey := by
  have hhex {bytes : List UInt8} : ∀ c ∈ hexString bytes, (c ≠ 0 : Bool) = true := by
    intro c hc
    have hdigit := hexValue_of_mem_hexString hc
    rw [decide_eq_true_eq]
    rintro rfl
    cases hdigit
  rw [cstr, List.takeWhile_eq_self_iff, forceKeyBody]
  simp only [List.forall_mem_append]
  refine ⟨⟨⟨⟨⟨⟨?_, hhex⟩, ?_⟩, hhex⟩, ?_⟩, hhex⟩, ?_⟩
  all_goals decide

/-- A field is found behind text without a quotation mark. -/
theorem strstr_jsonHexField (pre name : List UInt8) {t : List UInt8}
    (hname : fieldPattern name = 34 :: t) (hpre : 34 ∉ pre)
    (bytes rest : List UInt8) :
    strstr (fieldPattern name) (pre ++ jsonHexField name bytes rest) =
      some (jsonHexField name bytes rest) := by
  have hne : fieldPattern name ≠ [] := by
    rw [hname]
    exact List.cons_ne_nil _ _
  have hskip : strstr (fieldPattern name) (pre ++ jsonHexField name bytes rest) =
      strstr (fieldPattern name) (jsonHexField name bytes rest) := by
    rw [hname]
    exact strstr_append hpre _
  rw [hskip]
  exact strstr_found hne _

theorem parseHexField_keyId :
    parseHexField (forceKeyBody (hexString id.toList) key.toList macKey)
      (ascii "key_id") 8 = some id := by
  have hfound := strstr_jsonHexField [123] (ascii "key_id") rfl (by decide)
    id.toList
      (44 :: 32 :: jsonHexField (ascii "cipher_key") key.toList
        (44 :: 32 :: jsonHexField (ascii "mac_key") macKey.toList [125]))
  rw [forceKeyBody_eq]
  exact parseHexField_of_strstr id (by decide) hfound

/-- The cipher key is behind the field of the id. -/
theorem parseHexField_cipherKey :
    parseHexField (forceKeyBody (hexString id.toList) key.toList macKey)
      (ascii "cipher_key") 16 = some key := by
  let rest := 44 :: 32 :: jsonHexField (ascii "mac_key") macKey.toList [125]
  have hopen : strstr (fieldPattern (ascii "cipher_key"))
      (123 :: jsonHexField (ascii "key_id") id.toList
        (44 :: 32 :: jsonHexField (ascii "cipher_key") key.toList rest)) =
      strstr (fieldPattern (ascii "cipher_key"))
        (jsonHexField (ascii "key_id") id.toList
          (44 :: 32 :: jsonHexField (ascii "cipher_key") key.toList rest)) :=
    strstr_append (show (34 : UInt8) ∉ [123] by decide) _
  have hid : strstr (fieldPattern (ascii "cipher_key"))
        (jsonHexField (ascii "key_id") id.toList
          (44 :: 32 :: jsonHexField (ascii "cipher_key") key.toList rest)) =
      strstr (fieldPattern (ascii "cipher_key"))
          (44 :: 32 :: jsonHexField (ascii "cipher_key") key.toList rest) :=
    strstr_skipField (i := 1) (e := 105) rfl rfl (by decide) (by decide)
      (by decide) (by decide) (by simp) rfl (by decide)
  have hfound := strstr_jsonHexField [44, 32] (ascii "cipher_key") rfl
    (by decide) key.toList rest
  rw [forceKeyBody_eq]
  exact parseHexField_of_strstr key (by decide) (hopen.trans (hid.trans hfound))

/-- The MAC key is behind the fields of the id and of the cipher key. -/
theorem parseHexField_macKey :
    parseHexField (forceKeyBody (hexString id.toList) key.toList macKey)
      (ascii "mac_key") 32 = some macKey := by
  let mac := jsonHexField (ascii "mac_key") macKey.toList [125]
  let cipher := jsonHexField (ascii "cipher_key") key.toList (44 :: 32 :: mac)
  have hopen : strstr (fieldPattern (ascii "mac_key"))
      (123 :: jsonHexField (ascii "key_id") id.toList (44 :: 32 :: cipher)) =
      strstr (fieldPattern (ascii "mac_key"))
        (jsonHexField (ascii "key_id") id.toList (44 :: 32 :: cipher)) :=
    strstr_append (show (34 : UInt8) ∉ [123] by decide) _
  have hid : strstr (fieldPattern (ascii "mac_key"))
        (jsonHexField (ascii "key_id") id.toList (44 :: 32 :: cipher)) =
      strstr (fieldPattern (ascii "mac_key")) (44 :: 32 :: cipher) :=
    strstr_skipField (i := 0) (e := 109) rfl rfl (by decide) (by decide)
      (by decide) (by decide) (by simp) rfl (by decide)
  have hcomma : strstr (fieldPattern (ascii "mac_key")) (44 :: 32 :: cipher) =
      strstr (fieldPattern (ascii "mac_key")) cipher :=
    strstr_append (show (34 : UInt8) ∉ [44, 32] by decide) _
  have hcipher : strstr (fieldPattern (ascii "mac_key")) cipher =
      strstr (fieldPattern (ascii "mac_key")) (44 :: 32 :: mac) :=
    strstr_skipField (i := 0) (e := 109) rfl rfl (by decide) (by decide)
      (by decide) (by decide) (by simp) rfl (by decide)
  have hfound := strstr_jsonHexField [44, 32] (ascii "mac_key") rfl
    (by decide) macKey.toList [125]
  rw [forceKeyBody_eq]
  exact parseHexField_of_strstr macKey (by decide)
    (hopen.trans (hid.trans (hcomma.trans (hcipher.trans hfound))))

/-- The posted body leaves its three values in the mailbox. -/
theorem handleForceKeyRequest_forceKeyBody (g : ForceKeyMailbox) :
    handleForceKeyRequest (forceKeyBody (hexString id.toList) key.toList macKey) g =
      { requested := true
        targetId := id
        hasTarget := true
        cipherKey := key
        macKey := macKey
        hasMaterial := true } := by
  have hid := parseHexField_keyId id key macKey
  have hcipher := parseHexField_cipherKey id key macKey
  have hmac := parseHexField_macKey id key macKey
  simp only [handleForceKeyRequest, cstr_forceKeyBody, sstKeyIdSize, sstKeySize,
    sstMacKeySize, hid, hcipher, hmac]
  rfl

end

/-! ## Convergence -/

/-- The bytes that the main loop writes to the Pico. -/
def DashOut.txBytes : DashOut → List UInt8
  | tx bytes => bytes
  | _ => []

theorem RemoteForce.aesKey_pushed (remote : RemoteForce) :
    remote.pushed.aesKey = remote.cipherKey := by
  apply Bytes.ext_toList
  rw [SessionKey.aesKey, aesKeyOf, Bytes.toList_slice, RemoteForce.pushed,
    Bytes.toList_append, List.drop_zero,
    List.take_left' remote.cipherKey.toList_length]

/-- Case `f` with pushed material, where the port is open and nothing fails. -/
theorem handleForce_pushed (remote : RemoteForce)
    (hmaterial : remote.hasMaterial = true) {d : Dash} (hopen : d.fdOpen = true) {env : DashEnv}
    (hwrites : ∀ i, env.writes i = none) :
    handleForce env remote d =
      ({ d.adopt remote.pushed with stats := d.stats.keyConsumed },
        [.tx (keyFrame remote.targetId remote.cipherKey remote.macKey)]) := by
  have hsent : (writeChain env.writes 0 (keyFrameParts remote.targetId
      remote.pushed.aesKey remote.macKey)).1 =
        keyFrame remote.targetId remote.cipherKey remote.macKey := by
    rw [writeChain_of_writes hwrites, remote.aesKey_pushed]
    rfl
  rw [handleForce, if_pos hmaterial, forceAdopt, sendActiveKey]
  simp only [Dash.adopt, hopen, if_true]
  rw [← hsent]
  rfl

/-- A key pushed by the dashboard reaches the main loop, the reporter and, over
uart1, the Pico and its current slot. -/
theorem pushedKey_converges (m : Mbedtls) (api : SstApi) (id : Bytes 8)
    (key : Bytes 16) (macKey : Bytes 32) (g : ForceKeyMailbox) {d : Dash}
    (hopen : d.fdOpen = true) {env : DashEnv} (hwrites : ∀ i, env.writes i = none)
    (p : Pico) {k : ℕ} (hk : k ≤ 3) :
    ∃ press, (drainForceKey (handleForceKeyRequest
        (forceKeyBody (hexString id.toList) key.toList macKey) g)).1 = some press ∧
      let r := dashStep m api d env (.key press)
      (r.1.sKey.keyId, r.1.sKey.aesKey, r.1.sKey.macKey) = (id, key, macKey) ∧
        r.1.rep.macKey = macKey ∧
        r.1.rep.currentKeyIdHex = hexString id.toList ∧
        ∀ line (envs : List PicoEnv), Carries line (r.2.flatMap DashOut.txBytes) →
          line.length ≤ envs.length →
          let p' := ((lifiDrain m).run (p, ⟨k, line⟩) envs).1
          (p'.sessionKeyId, p'.sessionKey, p'.sessionMacKey) = (id, key, macKey) ∧
            p'.currentSlot = p.currentSlot ∧
            picoReadKeyPairFromSlot m p'.flash p'.currentSlot = some (id, key) := by
  let remote : RemoteForce := ⟨true, id, true, key, macKey⟩
  have hstep : dashStep m api d env (.key (.f remote)) =
      ({ d.adopt remote.pushed with stats := d.stats.keyConsumed },
        [.tx (keyFrame id key macKey)]) :=
    handleForce_pushed remote rfl hopen hwrites
  rw [handleForceKeyRequest_forceKeyBody]
  refine ⟨.f remote, rfl, ?_⟩
  rw [hstep]
  refine ⟨?_, rfl, rfl, ?_⟩
  · have hkey : remote.pushed.aesKey = key := remote.aesKey_pushed
    exact congrArg (fun k => (id, k, macKey)) hkey
  · intro line envs hline henvs
    rw [List.flatMap_singleton] at hline
    obtain ⟨penv, -, hrun⟩ := run_lifiDrain_keyFrame (m := m) p hk hline henvs
    rw [hrun]
    exact keys_handleKeyFrame penv id key macKey p

/-- A key of ones, twos and threes, pushed before any other one was known. -/
theorem pushedKey_converges_bare :
    ∃ press, (drainForceKey (handleForceKeyRequest
        (forceKeyBody (hexString (List.Vector.replicate 8 1).toList)
          (List.Vector.replicate 16 2).toList (List.Vector.replicate 32 3))
        ⟨false, Bytes.zero 8, false, Bytes.zero 16, Bytes.zero 32, false⟩)).1 =
          some press ∧
      let r := dashStep .transparent .failing (Dash.start true none
        (List.Vector.replicate 64 (Bytes.zero 12))) .bare (.key press)
      (r.1.sKey.keyId, r.1.sKey.aesKey, r.1.sKey.macKey) =
          (List.Vector.replicate 8 1, List.Vector.replicate 16 2,
            List.Vector.replicate 32 3) ∧
        r.1.rep.macKey = List.Vector.replicate 32 3 ∧
        r.1.rep.currentKeyIdHex = hexString (List.Vector.replicate 8 1).toList ∧
        ∀ line (envs : List PicoEnv), Carries line (r.2.flatMap DashOut.txBytes) →
          line.length ≤ envs.length →
          let p' := ((lifiDrain .transparent).run
            (Pico.off Flash.erased, ⟨3, line⟩) envs).1
          (p'.sessionKeyId, p'.sessionKey, p'.sessionMacKey) =
              (List.Vector.replicate 8 1, List.Vector.replicate 16 2,
                List.Vector.replicate 32 3) ∧
            p'.currentSlot = (Pico.off Flash.erased).currentSlot ∧
            picoReadKeyPairFromSlot .transparent p'.flash p'.currentSlot =
              some (List.Vector.replicate 8 1, List.Vector.replicate 16 2) :=
  pushedKey_converges .transparent .failing _ _ _ _ rfl (fun _ => rfl)
    (Pico.off Flash.erased) (Nat.le_refl 3)

end LifiAuth
