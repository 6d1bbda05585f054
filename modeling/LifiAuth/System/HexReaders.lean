import LifiAuth.Wifi.ChallengeServer
import LifiAuth.Wifi.ForceKey
import Mathlib.Data.List.GetD

/-!
# Hexadecimal input

The three readers of hexadecimal values: `parse_hex_field` for the fields of `/force_key`,
the nonce of `/challenge`, and `CMD: key`.  Each takes for a byte what `sscanf` or `strtoul`
takes for a number in two characters, and looks at the ends of the value only in part.
-/

namespace LifiAuth

open Support

/-! ## Digits -/

/-- The bytes that pairs of digits stand for. -/
def hexBytes : (n : ℕ) → List UInt8 → Option (Bytes n)
  | 0, [] => some List.Vector.nil
  | n + 1, a :: b :: s =>
      match hexValue a, hexValue b, hexBytes n s with
      | some x, some y, some bs => some (UInt8.ofNat (16 * x + y) ::ᵥ bs)
      | _, _, _ => none
  | _, _ => none

/-- Exactly twice as many digits as bytes, and nothing else. -/
def HexDigits (n : ℕ) (s : List UInt8) : Prop :=
  s.length = 2 * n ∧ ∀ c ∈ s, (hexValue c).isSome

/-- A sign of a number. -/
def isSign (c : UInt8) : Bool :=
  c == 43 || c == 45

/-- Behind white space, a digit or a sign and a digit. -/
def startsNumber (s : List UInt8) : Bool :=
  match s.dropWhile isSpace with
  | [] => false
  | [c] => (hexValue c).isSome
  | c :: d :: _ => (hexValue c).isSome || (isSign c && (hexValue d).isSome)

theorem isSome_hexBytes_cons {n : ℕ} {a b : UInt8} {s : List UInt8} :
    (hexBytes (n + 1) (a :: b :: s)).isSome ↔
      (hexValue a).isSome ∧ (hexValue b).isSome ∧ (hexBytes n s).isSome := by
  rw [hexBytes]
  split
  · next x y bs hx hy hbs => simp [hx, hy, hbs]
  · next hnone =>
      refine iff_of_false (by simp) ?_
      simp only [Option.isSome_iff_exists]
      rintro ⟨⟨x, hx⟩, ⟨y, hy⟩, ⟨bs, hbs⟩⟩
      exact hnone x y bs hx hy hbs

theorem hexDigits_cons {n : ℕ} {a b : UInt8} {s : List UInt8} :
    HexDigits (n + 1) (a :: b :: s) ↔
      (hexValue a).isSome ∧ (hexValue b).isSome ∧ HexDigits n s := by
  have hlen : (a :: b :: s).length = 2 * (n + 1) ↔ s.length = 2 * n := by
    rw [List.length_cons, List.length_cons]
    omega
  rw [HexDigits, HexDigits, hlen, List.forall_mem_cons, List.forall_mem_cons]
  constructor
  · rintro ⟨hlen, ha, hb, hs⟩
    exact ⟨ha, hb, hlen, hs⟩
  · rintro ⟨ha, hb, hlen, hs⟩
    exact ⟨hlen, ha, hb, hs⟩

theorem hexDigits_of_pairs {n : ℕ} {s : List UInt8} (hlen : s.length = 2 * n)
    (hpairs : ∀ j < n, (hexValue (s.getD (2 * j) 0)).isSome ∧
      (hexValue (s.getD (2 * j + 1) 0)).isSome) : HexDigits n s := by
  refine ⟨hlen, fun c hc => ?_⟩
  obtain ⟨i, hi, rfl⟩ := List.getElem_of_mem hc
  rw [← List.getD_eq_getElem s 0 hi]
  have hj : i / 2 < n := by omega
  rcases Nat.mod_two_eq_zero_or_one i with hmod | hmod
  · rw [show i = 2 * (i / 2) by omega]
    exact (hpairs _ hj).1
  · rw [show i = 2 * (i / 2) + 1 by omega]
    exact (hpairs _ hj).2

theorem HexDigits.head?_ne {n : ℕ} {s : List UInt8} (h : HexDigits n s) {c : UInt8}
    (hc : hexValue c = none) : s.head? ≠ some c := by
  intro hhead
  exact ne_of_hexValue (h.2 c (List.mem_of_head? hhead)) hc rfl

theorem isSome_hexBytes_iff {n : ℕ} {s : List UInt8} :
    (hexBytes n s).isSome ↔ HexDigits n s := by
  induction n generalizing s with
  | zero =>
      rcases s with _ | ⟨a, s⟩
      · exact iff_of_true rfl ⟨rfl, List.forall_mem_nil _⟩
      · exact iff_of_false (by simp [hexBytes]) (by simp [HexDigits])
  | succ n ih =>
      rcases s with _ | ⟨a, _ | ⟨b, s⟩⟩
      · refine iff_of_false (by simp [hexBytes]) ?_
        rintro ⟨hlen, -⟩
        simp at hlen
      · refine iff_of_false (by simp [hexBytes]) ?_
        rintro ⟨hlen, -⟩
        rw [List.length_singleton] at hlen
        omega
      · rw [isSome_hexBytes_cons, hexDigits_cons, ih]

theorem hexDigits_of_eq_some {n : ℕ} {s : List UInt8} {bytes : Bytes n}
    (h : hexBytes n s = some bytes) : HexDigits n s :=
  isSome_hexBytes_iff.mp (by
    rw [h]
    rfl)

/-- Digits come in pairs, each of which stands for a byte. -/
theorem HexDigits.pairs_induction {P : (n : ℕ) → List UInt8 → Prop} (hnil : P 0 [])
    (hcons : ∀ {n a b s x y} {bs : Bytes n}, hexValue a = some x → hexValue b = some y →
      hexBytes n s = some bs → P n s → P (n + 1) (a :: b :: s))
    {n : ℕ} {s : List UInt8} (h : HexDigits n s) : P n s := by
  induction n generalizing s with
  | zero =>
      rw [List.eq_nil_of_length_eq_zero h.1]
      exact hnil
  | succ n ih =>
      rcases s with _ | ⟨a, _ | ⟨b, s⟩⟩
      · simp [HexDigits] at h
      · have hlen := h.1
        rw [List.length_singleton] at hlen
        omega
      · obtain ⟨ha, hb, hs⟩ := hexDigits_cons.mp h
        obtain ⟨x, hx⟩ := Option.isSome_iff_exists.mp ha
        obtain ⟨y, hy⟩ := Option.isSome_iff_exists.mp hb
        obtain ⟨bs, hbs⟩ := Option.isSome_iff_exists.mp (isSome_hexBytes_iff.mpr hs)
        exact hcons hx hy hbs (ih hs)

/-! ## What is taken for digits -/

theorem isSign_iff {c : UInt8} : isSign c ↔ c = 43 ∨ c = 45 := by
  simp [isSign]

theorem hexValue_of_isSign {c : UInt8} (h : isSign c) : hexValue c = none := by
  rcases isSign_iff.mp h with rfl | rfl
  · rfl
  · rfl

theorem isSome_sscanfHexByte (s : List UInt8) :
    (sscanfHexByte s).isSome = startsNumber s := by
  rw [sscanfHexByte, startsNumber]
  rcases s.dropWhile isSpace with _ | ⟨c, t⟩
  · rfl
  by_cases hsign : isSign c
  · have hvalue := hexValue_of_isSign hsign
    rcases t with _ | ⟨d, t⟩
    · rcases isSign_iff.mp hsign with rfl | rfl
      · rfl
      · rfl
    · rcases hd : hexValue d with _ | w
      · rcases isSign_iff.mp hsign with rfl | rfl
        · simp [hvalue, hd]
        · simp [hvalue, hd]
      · rcases isSign_iff.mp hsign with rfl | rfl
        · simp [hd, hsign]
        · simp [hd, hsign]
  · have hc : c ≠ 43 ∧ c ≠ 45 := by simpa [isSign] using hsign
    rcases hvalue : hexValue c with _ | v
    · rcases t with _ | ⟨d, t⟩
      · simp [hc, hvalue]
      · simp [hc, hvalue, hsign]
    · rcases t with _ | ⟨d, t⟩
      · simp [hc, hvalue]
      · rcases hd : hexValue d with _ | w
        · simp [hc, hvalue, hd]
        · simp [hc, hvalue, hd]

/-- Two digits are read for what they stand for. -/
theorem sscanfHexByte_digits {a b : UInt8} {x y : ℕ} (ha : hexValue a = some x)
    (hb : hexValue b = some y) (s : List UInt8) :
    sscanfHexByte (a :: b :: s) = some (UInt8.ofNat (16 * x + y)) := by
  have hsome : (hexValue a).isSome := by
    rw [ha]
    rfl
  have hspace := isSpace_of_hexValue hsome
  have hplus : a ≠ 43 := ne_of_hexValue hsome rfl
  have hminus : a ≠ 45 := ne_of_hexValue hsome rfl
  simp [sscanfHexByte, hspace, hplus, hminus, ha, hb]

/-- Every pair of the first `n` starts a number. -/
def NumberPairs (n : ℕ) (s : List UInt8) : Prop :=
  ∀ j < n, startsNumber (s.drop (2 * j)) = true

instance (n : ℕ) (s : List UInt8) : Decidable (NumberPairs n s) :=
  inferInstanceAs (Decidable (∀ j < n, startsNumber (s.drop (2 * j)) = true))

theorem isSome_scanHexPairs_iff {n : ℕ} {s : List UInt8} :
    (scanHexPairs n s).isSome ↔ NumberPairs n s := by
  induction n generalizing s with
  | zero => exact iff_of_true rfl (fun j hj => absurd hj (Nat.not_lt_zero j))
  | succ n ih =>
      have hsplit : NumberPairs (n + 1) s ↔
          startsNumber s = true ∧ NumberPairs n (s.drop 2) := by
        simp only [NumberPairs, List.drop_drop]
        rw [Nat.forall_lt_succ_left]
        refine and_congr Iff.rfl (forall₂_congr fun j _ => ?_)
        rw [show 2 * (j + 1) = 2 + 2 * j by omega]
      rw [hsplit, ← ih, ← isSome_sscanfHexByte, scanHexPairs]
      rcases sscanfHexByte s with _ | b
      · simp
      · rcases scanHexPairs n (s.drop 2) with _ | bs
        · simp
        · simp

theorem scanHexPairs_eq_hexBytes {n : ℕ} {s : List UInt8} (h : HexDigits n s) :
    scanHexPairs n s = hexBytes n s := by
  refine HexDigits.pairs_induction (P := fun n s => scanHexPairs n s = hexBytes n s) rfl ?_ h
  intro n a b s x y bs hx hy hbs ih
  simp only [scanHexPairs, hexBytes, sscanfHexByte_digits hx hy, hx, hy,
    List.drop_succ_cons, List.drop_zero, ih, hbs]

/-! ## Values in quotation marks -/

/-- What follows the name of a field and the next colon. -/
def fieldText (body name : List UInt8) : Option (List UInt8) :=
  (strstr (fieldPattern name) body).bind fun p =>
    (strchr 58 (p.drop (fieldPattern name).length)).map List.tail

/-- A value of `n` bytes behind a colon: in quotation marks, digits and nothing else. -/
def QuotedHex (n : ℕ) (text : List UInt8) (bytes : Bytes n) : Prop :=
  ∃ k digits rest, text = List.replicate k 32 ++ 34 :: (digits ++ 34 :: rest) ∧
    hexBytes n digits = some bytes

/-- The characters that are read as digits, behind those that are passed over. -/
def readDigits (skip : UInt8 → Bool) (n : ℕ) (text : List UInt8) : List UInt8 :=
  ((text.dropWhile skip).takeWhile (· != 34)).take (2 * n)

/-- Enough characters for a value, which is none: one of them is no digit, no mark follows
them, or more is passed over in front of them than blanks and a mark. -/
def LaxQuoted (skip : UInt8 → Bool) (n : ℕ) (text : List UInt8) : Prop :=
  (readDigits skip n text).length = 2 * n ∧
    ((∃ c ∈ readDigits skip n text, hexValue c = none) ∨
      ((text.dropWhile skip).drop (2 * n)).head? ≠ some 34 ∨
      ∀ k, text.takeWhile skip ≠ List.replicate k 32 ++ [34])

section

variable {skip : UInt8 → Bool} {n : ℕ} {text : List UInt8}

/-- What is read without being lax is a value between its marks. -/
theorem quoted_of_not_lax (hlen : (readDigits skip n text).length = 2 * n)
    (hlax : ¬ LaxQuoted skip n text) :
    HexDigits n (readDigits skip n text) ∧ ∃ k rest,
      text = List.replicate k 32 ++ 34 :: (readDigits skip n text ++ 34 :: rest) := by
  rw [LaxQuoted, not_and_or, not_or, not_or, not_exists, not_not, not_forall] at hlax
  obtain ⟨hdigits, hmark, k, hskipped⟩ := hlax.resolve_left (fun h => h hlen)
  rw [not_not] at hskipped
  refine ⟨⟨hlen, fun c hc => ?_⟩, k, ((text.dropWhile skip).drop (2 * n)).tail, ?_⟩
  · rw [Option.isSome_iff_ne_none]
    exact fun hnone => hdigits c ⟨hc, hnone⟩
  · have hprefix : readDigits skip n text = (text.dropWhile skip).take (2 * n) := by
      have htake : readDigits skip n text <+: text.dropWhile skip :=
        (List.take_prefix _ _).trans (List.takeWhile_prefix _)
      rw [List.prefix_iff_eq_take.mp htake, hlen]
    have hrest : (text.dropWhile skip).drop (2 * n) =
        34 :: ((text.dropWhile skip).drop (2 * n)).tail :=
      (List.cons_head?_tail hmark).symm
    rw [← hrest, hprefix, List.take_append_drop, ← List.singleton_append,
      ← List.append_assoc, ← hskipped, List.takeWhile_append_dropWhile]

/-- A value between its marks is read. -/
theorem readDigits_quoted (hskip : skip 32 ∧ skip 34)
    (hdigit : ∀ c, (hexValue c).isSome → skip c = false) (hn : 0 < n) {digits : List UInt8}
    (hdigits : HexDigits n digits) (k : ℕ) (rest : List UInt8) :
    let text := List.replicate k 32 ++ 34 :: (digits ++ 34 :: rest)
    readDigits skip n text = digits ∧ text.takeWhile skip = List.replicate k 32 ++ [34] ∧
      (text.dropWhile skip).drop (2 * n) = 34 :: rest := by
  have hpassed : ∀ c ∈ List.replicate k 32 ++ [34], skip c = true := by
    intro c hc
    rcases List.mem_append.mp hc with hc | hc
    · rw [List.eq_of_mem_replicate hc]
      exact hskip.1
    · rw [List.mem_singleton.mp hc]
      exact hskip.2
  have htext : List.replicate k 32 ++ 34 :: (digits ++ 34 :: rest) =
      (List.replicate k 32 ++ [34]) ++ (digits ++ 34 :: rest) := by simp
  obtain ⟨c, t, hcons⟩ : ∃ c t, digits = c :: t := by
    refine List.exists_cons_of_length_pos ?_
    rw [hdigits.1]
    omega
  have hstop : skip c = false := hdigit c (hdigits.2 c (by rw [hcons]; exact .head _))
  have hdrop : (digits ++ 34 :: rest).dropWhile skip = digits ++ 34 :: rest := by
    rw [hcons, List.cons_append, List.dropWhile_cons_of_neg (by simp [hstop])]
  have htake : (digits ++ 34 :: rest).takeWhile skip = [] := by
    rw [hcons, List.cons_append, List.takeWhile_cons_of_neg (by simp [hstop])]
  have hquote : ∀ d ∈ digits, (d != 34) = true := by
    intro d hd
    rw [bne_iff_ne]
    exact ne_of_hexValue (hdigits.2 d hd) rfl
  dsimp only
  rw [htext, readDigits, List.dropWhile_append_of_pos hpassed, hdrop,
    List.takeWhile_append_of_pos hquote, List.takeWhile_cons_of_neg (by simp),
    List.append_nil, List.takeWhile_append_of_pos hpassed, htake, List.append_nil,
    ← hdigits.1]
  exact ⟨List.take_length, rfl, List.drop_left⟩

end

/-! ## The readers of quoted values -/

/-- What `parse_hex_field` passes over behind the colon. -/
def fieldSkip (c : UInt8) : Bool :=
  c == 32 || c == 34

/-- What `challenge_handle` passes over from the colon on. -/
def nonceSkip (c : UInt8) : Bool :=
  c == 58 || c == 32 || c == 34

/-- The nonce that `challenge_handle` computes the tag of. -/
def challengeNonce (body : List UInt8) (stack : Bytes 32) : Option (Bytes 32) :=
  (challengeNonceHex (cstr body)).map fun hex => decodeNonce hex stack

theorem skip_fieldSkip {c : UInt8} (h : (hexValue c).isSome) : fieldSkip c = false := by
  have hblank : c ≠ 32 := ne_of_hexValue h rfl
  have hmark : c ≠ 34 := ne_of_hexValue h rfl
  simp [fieldSkip, hblank, hmark]

theorem skip_nonceSkip {c : UInt8} (h : (hexValue c).isSome) : nonceSkip c = false := by
  have hcolon : c ≠ 58 := ne_of_hexValue h rfl
  have hblank : c ≠ 32 := ne_of_hexValue h rfl
  have hmark : c ≠ 34 := ne_of_hexValue h rfl
  simp [nonceSkip, hcolon, hblank, hmark]

/-- The field reader from the colon on. -/
theorem parseHexField_eq {n : ℕ} (hn : 2 * n ≤ 2 * sstMacKeySize) (body name : List UInt8) :
    parseHexField body name n = (fieldText body name).bind fun text =>
      if (readDigits fieldSkip n text).length = 2 * n then
        scanHexPairs n (readDigits fieldSkip n text)
      else none := by
  rw [parseHexField, if_neg (by omega), fieldText, Nat.mul_comm n 2]
  rcases strstr (fieldPattern name) body with _ | p
  · rfl
  rcases hcolon : strchr 58 (p.drop (fieldPattern name).length) with _ | text
  · simp [hcolon]
  · by_cases hlen : (readDigits fieldSkip n text.tail).length = 2 * n
    · simp only [hcolon, Option.bind_some, Option.map_some, if_pos hlen]
      exact if_neg (not_not.mpr hlen)
    · simp only [hcolon, Option.bind_some, Option.map_some, if_neg hlen]
      exact if_pos hlen

/-- The nonce reader from the colon on. -/
theorem challengeNonceHex_eq (body : List UInt8) :
    challengeNonceHex body = (fieldText body (ascii "nonce")).bind fun text =>
      if (readDigits nonceSkip 32 text).length = 2 * 32 then
        some (readDigits nonceSkip 32 text)
      else none := by
  have hname : fieldPattern (ascii "nonce") = ascii "\"nonce\"" := by decide
  rw [challengeNonceHex, fieldText, hname]
  rcases hfound : strstr (ascii "\"nonce\"") body with _ | p
  · rfl
  obtain ⟨rest, hrest⟩ := prefix_of_strstr hfound
  have hcolons : strchr 58 p = strchr 58 (p.drop (ascii "\"nonce\"").length) := by
    rw [← hrest, List.drop_left, strchr_append (by decide)]
  simp only [Option.bind_some, hcolons]
  rcases hcolon : strchr 58 (p.drop (ascii "\"nonce\"").length) with _ | text
  · rfl
  · have hskipped : text.dropWhile nonceSkip = text.tail.dropWhile nonceSkip := by
      conv_lhs => rw [strchr_eq_some hcolon]
      exact List.dropWhile_cons_of_pos (by decide)
    simp only [Option.bind_some, Option.map_some, readDigits, ← hskipped]
    rfl

/-- The nonce of a challenge is what its tag is computed of. -/
theorem challengeNonce_of_maced {m : Mbedtls} {body : List UInt8} {stack : Bytes 32} {p : Pi4}
    {macKey nonce : Bytes 32} (h : .nonceMaced macKey nonce ∈ (challengeBegin m body stack p).2) :
    challengeNonce body stack = some nonce := by
  rw [challengeBegin] at h
  split at h
  · next hex _ hhex =>
      rw [challengeNonce, hhex]
      split at h
      · simp only at h
        split at h
        · rw [List.mem_singleton] at h
          cases h
          rfl
        · cases h
      · cases h
  · cases h

/-! ## The three readers -/

/-- The fields of `/force_key`. -/
inductive KeyField where
  | keyId
  | cipherKey
  | macKey

namespace KeyField

def name : KeyField → List UInt8
  | keyId => ascii "key_id"
  | cipherKey => ascii "cipher_key"
  | macKey => ascii "mac_key"

def size : KeyField → ℕ
  | keyId => sstKeyIdSize
  | cipherKey => sstKeySize
  | macKey => sstMacKeySize

end KeyField

/-- What a reader is given: a request body, one with what the stack held before, or what
follows `CMD: key `. -/
inductive HexInput where
  | forceKey (field : KeyField) (body : List UInt8) (g : ForceKeyMailbox)
  | challenge (body : List UInt8) (stack : Bytes 32)
  | key (env : PicoEnv) (arg : List UInt8) (p : Pico)

/-- The material of the mailbox is neither set nor changed. -/
structure MaterialUnset (g g' : ForceKeyMailbox) : Prop where
  hasMaterial : g'.hasMaterial = false
  cipherKey : g'.cipherKey = g.cipherKey
  macKey : g'.macKey = g.macKey

/-- A field stands in a body, with this value. -/
def FieldHex (body name : List UInt8) (n : ℕ) (bytes : Bytes n) : Prop :=
  ∃ text, fieldText body name = some text ∧ QuotedHex n text bytes

/-- The reader takes its input exactly if it is a value, for what its digits stand for, and
leaves everything alone otherwise. -/
def HexInput.Exact (m : Mbedtls) : HexInput → Prop
  | forceKey field body g =>
      (∀ bytes, parseHexField (cstr body) field.name field.size = some bytes ↔
        FieldHex (cstr body) field.name field.size bytes) ∧
      ((∀ bytes, ¬ FieldHex (cstr body) field.name field.size bytes) →
        MaterialUnset g (handleForceKeyRequest body g))
  | challenge body stack => ∀ nonce, challengeNonce body stack = some nonce ↔
      FieldHex (cstr body) (ascii "nonce") 32 nonce
  | key env arg p =>
      (∀ key, hexBytes sstKeySize arg = some key →
        handleCommands m env (ascii " key " ++ arg) p = installKey m manualKeyId key p) ∧
      (hexBytes sstKeySize arg = none →
        handleCommands m env (ascii " key " ++ arg) p = (false, p))

/-- What follows `CMD: key ` and any blanks is long enough, each of its first pairs is two
digits, or white space or a sign in front of one, and it is no value: blanks, more
characters or such a pair. -/
def LaxKey (arg : List UInt8) : Prop :=
  let hex := arg.dropWhile (· == 32)
  2 * sstKeySize ≤ hex.length ∧
    (∀ j < sstKeySize,
      ((hexValue (hex.getD (2 * j) 0)).isSome ∨ isSpace (hex.getD (2 * j) 0) ∨
        isSign (hex.getD (2 * j) 0)) ∧ (hexValue (hex.getD (2 * j + 1) 0)).isSome) ∧
    (arg.head? = some 32 ∨ 2 * sstKeySize < hex.length ∨
      ∃ j < sstKeySize, hexValue (hex.getD (2 * j) 0) = none)

/-- The input is taken for a value and is none. -/
def HexInput.Lax : HexInput → Prop
  | forceKey field body _ => ∃ text, fieldText (cstr body) field.name = some text ∧
      LaxQuoted fieldSkip field.size text ∧
      NumberPairs field.size (readDigits fieldSkip field.size text)
  | challenge body _ => ∃ text, fieldText (cstr body) (ascii "nonce") = some text ∧
      LaxQuoted nonceSkip 32 text
  | key _ arg _ => LaxKey arg

/-! ## Exactness -/

section

variable {skip : UInt8 → Bool} {n : ℕ} {decode : List UInt8 → Option (Bytes n)}

/-- A reader of quoted values is exact unless something lax stands behind the name. -/
theorem quotedReader_exact_iff (hskip : skip 32 ∧ skip 34)
    (hdigit : ∀ c, (hexValue c).isSome → skip c = false) (hn : 0 < n)
    (hdecode : ∀ s, HexDigits n s → decode s = hexBytes n s) (body name : List UInt8) :
    (∀ bytes, ((fieldText body name).bind fun text =>
        if (readDigits skip n text).length = 2 * n then decode (readDigits skip n text)
        else none) = some bytes ↔ FieldHex body name n bytes) ↔
      ¬ ∃ text, fieldText body name = some text ∧ LaxQuoted skip n text ∧
        (decode (readDigits skip n text)).isSome := by
  constructor
  · rintro h ⟨text, htext, hlax, hsome⟩
    obtain ⟨bytes, hbytes⟩ := Option.isSome_iff_exists.mp hsome
    obtain ⟨text', htext', k, digits, rest, rfl, hhex⟩ := (h bytes).mp (by
      rw [htext, Option.bind_some, if_pos hlax.1, hbytes])
    obtain rfl := Option.some.inj (htext'.symm.trans htext)
    have hdigits := hexDigits_of_eq_some hhex
    obtain ⟨hread, hskipped, hrest⟩ := readDigits_quoted hskip hdigit hn hdigits k rest
    rcases hlax.2 with ⟨c, hc, hnone⟩ | hmark | hfront
    · rw [hread] at hc
      exact ne_of_hexValue (hdigits.2 c hc) hnone rfl
    · rw [hrest] at hmark
      exact hmark rfl
    · exact hfront k hskipped
  · intro hlax bytes
    constructor
    · intro hread
      obtain ⟨text, htext, hread⟩ := Option.bind_eq_some_iff.mp hread
      split at hread
      · next hlen =>
          have hnot : ¬ LaxQuoted skip n text := by
            intro hquoted
            exact hlax ⟨text, htext, hquoted, by rw [hread]; rfl⟩
          obtain ⟨hdigits, k, rest, heq⟩ := quoted_of_not_lax hlen hnot
          rw [hdecode _ hdigits] at hread
          exact ⟨text, htext, k, _, rest, heq, hread⟩
      · cases hread
    · rintro ⟨text, htext, k, digits, rest, rfl, hhex⟩
      have hdigits := hexDigits_of_eq_some hhex
      obtain ⟨hread, -, -⟩ := readDigits_quoted hskip hdigit hn hdigits k rest
      rw [htext, Option.bind_some, hread, if_pos hdigits.1, hdecode _ hdigits, hhex]

end

theorem parseHexField_exact_iff (field : KeyField) (body : List UInt8) :
    (∀ bytes, parseHexField body field.name field.size = some bytes ↔
      FieldHex body field.name field.size bytes) ↔
      ¬ ∃ text, fieldText body field.name = some text ∧
        LaxQuoted fieldSkip field.size text ∧
        NumberPairs field.size (readDigits fieldSkip field.size text) := by
  have hsize : 0 < field.size ∧ 2 * field.size ≤ 2 * sstMacKeySize := by
    rcases field with _ | _ | _
    all_goals decide
  have hexact := quotedReader_exact_iff (by decide) (fun _ => skip_fieldSkip) hsize.1
    (fun _ => scanHexPairs_eq_hexBytes) body field.name
  simp only [isSome_scanHexPairs_iff] at hexact
  rw [← hexact, parseHexField_eq hsize.2]

/-- A decoded nonce, where every pair is digits. -/
theorem decodeNonce_digits {s : List UInt8} (h : HexDigits 32 s) (stack : Bytes 32) :
    some (decodeNonce s stack) = hexBytes 32 s := by
  have hget {n : ℕ} {s : List UInt8} {bytes : Bytes n} (h : scanHexPairs n s = some bytes)
      (j : Fin n) : sscanfHexByte (s.drop (2 * j)) = some (bytes.get j) := by
    induction n generalizing s with
    | zero => exact j.elim0
    | succ n ih =>
        rw [scanHexPairs] at h
        split at h
        · next b bs hb hbs =>
            obtain rfl := Option.some.inj h
            induction j using Fin.cases with
            | zero => exact hb
            | succ j =>
                rw [List.Vector.get_cons_succ, ← ih hbs j, List.drop_drop, Fin.val_succ,
                  show 2 * (j.val + 1) = 2 + 2 * j.val by omega]
        · cases h
  obtain ⟨bytes, hbytes⟩ := Option.isSome_iff_exists.mp (isSome_hexBytes_iff.mpr h)
  rw [hbytes]
  rw [← scanHexPairs_eq_hexBytes h] at hbytes
  congr 1
  ext j
  rw [decodeNonce, List.Vector.get_ofFn, hget hbytes j, Option.getD_some]

theorem challengeNonce_exact_iff (body : List UInt8) (stack : Bytes 32) :
    (∀ nonce, challengeNonce body stack = some nonce ↔
      FieldHex (cstr body) (ascii "nonce") 32 nonce) ↔
      ¬ ∃ text, fieldText (cstr body) (ascii "nonce") = some text ∧
        LaxQuoted nonceSkip 32 text := by
  have hexact := quotedReader_exact_iff (by decide) (fun _ => skip_nonceSkip) (by decide)
    (fun s hs => decodeNonce_digits hs stack) (cstr body) (ascii "nonce")
  simp only [Option.isSome_some, and_true] at hexact
  rw [← hexact, challengeNonce, challengeNonceHex_eq]
  simp only [Option.map_bind, Function.comp_def, apply_ite, Option.map_some, Option.map_none]

/-! ## The typed key -/

/-- `strtoul` takes two characters exactly if the second is a digit and the first one is
too, or is passed over as white space or taken for a sign. -/
theorem isSome_strtoulByte {a b : UInt8} : (strtoulByte [a, b]).isSome ↔
    ((hexValue a).isSome ∨ isSpace a ∨ isSign a) ∧ (hexValue b).isSome := by
  by_cases hspace : isSpace a
  · by_cases hspace' : isSpace b
    · have hb : ¬ (hexValue b).isSome := by
        intro h
        rw [isSpace_of_hexValue h] at hspace'
        cases hspace'
      simp [strtoulByte, hspace, hspace', hb]
    · by_cases hsign : isSign b
      · have hb := hexValue_of_isSign hsign
        rcases isSign_iff.mp hsign with rfl | rfl
        · simp [strtoulByte, hspace, hspace', hb]
        · simp [strtoulByte, hspace, hspace', hb]
      · have hne : b ≠ 43 ∧ b ≠ 45 := by simpa [isSign] using hsign
        rcases hvalue : hexValue b with _ | y
        · simp [strtoulByte, hspace, hspace', hne, hvalue]
        · simp [strtoulByte, hspace, hspace', hne, hvalue]
  · by_cases hsign : isSign a
    · rcases isSign_iff.mp hsign with rfl | rfl
      · rcases hvalue : hexValue b with _ | y
        · simp [strtoulByte, hspace, hvalue]
        · simp [strtoulByte, hspace, hvalue, hsign]
      · rcases hvalue : hexValue b with _ | y
        · simp [strtoulByte, hspace, hvalue]
        · simp [strtoulByte, hspace, hvalue, hsign]
    · have hne : a ≠ 43 ∧ a ≠ 45 := by simpa [isSign] using hsign
      rcases hvalue : hexValue a with _ | x
      · simp [strtoulByte, hspace, hne, hvalue, hsign]
      · rcases hvalue' : hexValue b with _ | y
        · simp [strtoulByte, hspace, hne, hvalue, hvalue']
        · simp [strtoulByte, hspace, hne, hvalue, hvalue']

theorem strtoulByte_digits {a b : UInt8} {x y : ℕ} (ha : hexValue a = some x)
    (hb : hexValue b = some y) :
    strtoulByte [a, b] = some (UInt8.ofNat (16 * x + y)) := by
  have hsome : (hexValue a).isSome := by
    rw [ha]
    rfl
  have hspace := isSpace_of_hexValue hsome
  have hplus : a ≠ 43 := ne_of_hexValue hsome rfl
  have hminus : a ≠ 45 := ne_of_hexValue hsome rfl
  simp [strtoulByte, hspace, hplus, hminus, ha, hb]

theorem isSome_parseHexBytes {n : ℕ} {s : List UInt8} (hlen : 2 * n ≤ s.length) :
    (parseHexBytes n s).isSome ↔ ∀ j < n,
      ((hexValue (s.getD (2 * j) 0)).isSome ∨ isSpace (s.getD (2 * j) 0) ∨
        isSign (s.getD (2 * j) 0)) ∧ (hexValue (s.getD (2 * j + 1) 0)).isSome := by
  induction n generalizing s with
  | zero => exact iff_of_true rfl (fun j hj => absurd hj (Nat.not_lt_zero j))
  | succ n ih =>
      rcases s with _ | ⟨a, _ | ⟨b, s⟩⟩
      · simp at hlen
      · rw [List.length_singleton] at hlen
        omega
      · have hrest : 2 * n ≤ s.length := by
          rw [List.length_cons, List.length_cons] at hlen
          omega
        have hcons : (parseHexBytes (n + 1) (a :: b :: s)).isSome ↔
            (strtoulByte [a, b]).isSome ∧ (parseHexBytes n s).isSome := by
          rw [parseHexBytes]
          rcases strtoulByte [a, b] with _ | v
          · simp
          · rcases parseHexBytes n s with _ | vs
            · simp
            · simp
        rw [hcons, Nat.forall_lt_succ_left, isSome_strtoulByte, ih hrest]
        rfl

theorem parseHexBytes_eq_hexBytes {n : ℕ} {s : List UInt8} (h : HexDigits n s) :
    parseHexBytes n s = hexBytes n s := by
  refine HexDigits.pairs_induction (P := fun n s => parseHexBytes n s = hexBytes n s) rfl ?_ h
  intro n a b s x y bs hx hy hbs ih
  simp only [parseHexBytes, hexBytes, strtoulByte_digits hx hy, hx, hy, ih, hbs]

section

variable {m : Mbedtls} {env : PicoEnv} {p : Pico} {arg : List UInt8}

theorem handleCommands_key :
    handleCommands m env (ascii " key " ++ arg) p = setManualKey m arg p := by
  have hother {s : List UInt8} (hs : s.take 2 ≠ [32, 107]) : ascii " key " ++ arg ≠ s := by
    rintro rfl
    exact hs rfl
  rw [handleCommands, if_neg (hother (by decide)), if_neg (hother (by decide)),
    if_neg (hother (by decide)), if_neg (hother (by decide)), if_neg (hother (by decide)),
    if_neg (hother (by decide)), if_neg (hother (by decide)), if_neg (hother (by decide)),
    if_neg (hother (by decide)), if_pos (List.prefix_append _ _)]
  rfl

theorem dropWhile_blanks {s : List UInt8} (h : s.head? ≠ some 32) :
    s.dropWhile (· == 32) = s := by
  rcases s with _ | ⟨c, t⟩
  · rfl
  · exact List.dropWhile_cons_of_neg (by simpa using h)

/-- A key that is typed exactly is read as it is typed. -/
theorem setManualKey_digits {key : Bytes 16} (h : hexBytes sstKeySize arg = some key) :
    setManualKey m arg p = installKey m manualKeyId key p := by
  have hdigits := hexDigits_of_eq_some h
  have hdrop := dropWhile_blanks (hdigits.head?_ne (c := 32) rfl)
  have hread : parseHexBytes 16 arg = some key :=
    (parseHexBytes_eq_hexBytes hdigits).trans h
  simp only [setManualKey, hdrop, hread]
  rw [if_neg (Nat.not_lt.mpr hdigits.1.ge)]

/-- What is read as a key without being one. -/
theorem laxKey_iff : LaxKey arg ↔
    2 * sstKeySize ≤ (arg.dropWhile (· == 32)).length ∧
      (parseHexBytes sstKeySize (arg.dropWhile (· == 32))).isSome ∧
      hexBytes sstKeySize arg = none := by
  rw [LaxKey, ← Option.not_isSome_iff_eq_none, isSome_hexBytes_iff]
  refine and_congr_right fun hlen => ?_
  rw [isSome_parseHexBytes hlen]
  refine and_congr_right fun hpairs => ?_
  constructor
  · intro hends hdigits
    have hhead := hdigits.head?_ne (c := 32) rfl
    rw [dropWhile_blanks hhead, hdigits.1] at hends
    rcases hends with hblank | hlong | ⟨j, hj, hvalue⟩
    · exact hhead hblank
    · exact Nat.lt_irrefl _ hlong
    · have hlt : 2 * j < arg.length := by
        rw [hdigits.1]
        omega
      rw [List.getD_eq_getElem _ _ hlt] at hvalue
      have hsome := hdigits.2 _ (List.getElem_mem hlt)
      rw [hvalue] at hsome
      cases hsome
  · intro hdigits
    by_contra hends
    rw [not_or, not_or, not_exists] at hends
    obtain ⟨hhead, hlong, hfirst⟩ := hends
    rw [dropWhile_blanks hhead] at hlen hpairs hlong hfirst
    refine hdigits (hexDigits_of_pairs (by omega) fun j hj => ⟨?_, (hpairs j hj).2⟩)
    rw [Option.isSome_iff_ne_none]
    exact fun hvalue => hfirst j ⟨hj, hvalue⟩

theorem setManualKey_exact_iff :
    ((∀ key, hexBytes sstKeySize arg = some key →
        handleCommands m env (ascii " key " ++ arg) p = installKey m manualKeyId key p) ∧
      (hexBytes sstKeySize arg = none →
        handleCommands m env (ascii " key " ++ arg) p = (false, p))) ↔ ¬ LaxKey arg := by
  rw [handleCommands_key, laxKey_iff]
  constructor
  · rintro ⟨-, hrejected⟩ ⟨hlen, hread, hnone⟩
    obtain ⟨key, hkey⟩ := Option.isSome_iff_exists.mp hread
    have hkey : parseHexBytes 16 (arg.dropWhile (· == 32)) = some key := hkey
    have hchanged : (setManualKey m arg p).1 = true := by
      simp only [setManualKey, hkey]
      rw [if_neg (Nat.not_lt.mpr hlen)]
      rfl
    rw [hrejected hnone] at hchanged
    cases hchanged
  · intro hlax
    refine ⟨fun key => setManualKey_digits, fun hnone => ?_⟩
    by_cases hlen : 2 * sstKeySize ≤ (arg.dropWhile (· == 32)).length
    · have hunread : parseHexBytes 16 (arg.dropWhile (· == 32)) = none := by
        rw [← Option.not_isSome_iff_eq_none]
        exact fun hsome => hlax ⟨hlen, hsome, hnone⟩
      simp only [setManualKey, hunread]
      exact ite_self _
    · simp only [setManualKey]
      exact if_pos (Nat.not_le.mp hlen)

end

theorem materialUnset_of_none {field : KeyField} {body : List UInt8}
    (h : parseHexField (cstr body) field.name field.size = none) (g : ForceKeyMailbox) :
    MaterialUnset g (handleForceKeyRequest body g) := by
  rcases field with _ | _ | _
  · have hid : parseHexField (cstr body) (ascii "key_id") sstKeyIdSize = none := h
    rw [handleForceKeyRequest, hid]
    exact ⟨rfl, rfl, rfl⟩
  · have hcipher : parseHexField (cstr body) (ascii "cipher_key") sstKeySize = none := h
    rw [handleForceKeyRequest, hcipher]
    rcases parseHexField (cstr body) (ascii "key_id") sstKeyIdSize with _ | id
    · exact ⟨rfl, rfl, rfl⟩
    · exact ⟨rfl, rfl, rfl⟩
  · have hmac : parseHexField (cstr body) (ascii "mac_key") sstMacKeySize = none := h
    rw [handleForceKeyRequest, hmac]
    rcases parseHexField (cstr body) (ascii "key_id") sstKeyIdSize with _ | id
    · exact ⟨rfl, rfl, rfl⟩
    · rcases parseHexField (cstr body) (ascii "cipher_key") sstKeySize with _ | key
      · exact ⟨rfl, rfl, rfl⟩
      · exact ⟨rfl, rfl, rfl⟩

/-- Each of the readers is exact unless its input is lax. -/
theorem hexInput_exact_iff (m : Mbedtls) (input : HexInput) :
    input.Exact m ↔ ¬ input.Lax := by
  rcases input with ⟨field, body, g⟩ | ⟨body, stack⟩ | ⟨env, arg, p⟩
  · rw [HexInput.Exact, HexInput.Lax, ← parseHexField_exact_iff]
    refine and_iff_left_of_imp fun hexact hnone => ?_
    have hunread : parseHexField (cstr body) field.name field.size = none := by
      rw [Option.eq_none_iff_forall_ne_some]
      intro bytes hbytes
      exact hnone bytes ((hexact bytes).mp hbytes)
    exact materialUnset_of_none hunread g
  · exact challengeNonce_exact_iff body stack
  · exact setManualKey_exact_iff

/-- `CMD: key -1` and thirty zeros. -/
theorem signedKey_installed :
    ¬ (HexInput.key .salted (ascii "-1" ++ List.replicate 30 48)
      (Pico.off Flash.erased)).Exact .transparent := by
  rintro ⟨-, hrejected⟩
  have hnone : hexBytes sstKeySize (ascii "-1" ++ List.replicate 30 48) = none := by decide
  have hread : parseHexBytes 16 ((ascii "-1" ++ List.replicate 30 48).dropWhile (· == 32)) =
      some (255 ::ᵥ List.Vector.replicate 15 0) := by decide
  have hfalse := congrArg Prod.fst (hrejected hnone)
  rw [handleCommands_key] at hfalse
  simp only [setManualKey, hread] at hfalse
  cases hfalse

end LifiAuth
