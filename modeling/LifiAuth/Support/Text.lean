import LifiAuth.Support.Bytes
import Mathlib.Data.List.TakeWhile

/-!
# Text as bytes

C strings are byte lists: the literals of the source, the part of a buffer that
`strcmp` sees, and what `printf`, `sscanf` and the searches of the C library do
with them.
-/

namespace LifiAuth

/-- The bytes of a string literal. -/
def ascii (s : String) : List UInt8 :=
  s.toList.map fun c => c.toNat.toUInt8

/-- What a buffer holds as a C string. -/
def cstr (buf : List UInt8) : List UInt8 :=
  buf.takeWhile (· ≠ 0)

/-- A digit of `%x`. -/
def hexDigit (n : ℕ) : UInt8 :=
  if n < 10 then UInt8.ofNat (48 + n) else UInt8.ofNat (87 + n)

/-- `%02x` of each byte. -/
def hexString (bytes : List UInt8) : List UInt8 :=
  bytes.flatMap fun b => [hexDigit (b.toNat / 16), hexDigit (b.toNat % 16)]

@[simp] theorem length_hexString (bytes : List UInt8) :
    (hexString bytes).length = 2 * bytes.length := by
  induction bytes with
  | nil => rfl
  | cons b bytes ih =>
      have hcons : hexString (b :: bytes) =
          [hexDigit (b.toNat / 16), hexDigit (b.toNat % 16)] ++
            hexString bytes := rfl
      rw [hcons, List.length_append, ih]
      simp only [List.length_cons, List.length_nil]
      omega

/-! ## Reading text -/

def isSpace (c : UInt8) : Bool :=
  c == 32 || (9 ≤ c && c ≤ 13)

/-- The value of a hexadecimal digit. -/
def hexValue (c : UInt8) : Option ℕ :=
  if 48 ≤ c ∧ c ≤ 57 then some (c.toNat - 48)
  else if 97 ≤ c ∧ c ≤ 102 then some (c.toNat - 87)
  else if 65 ≤ c ∧ c ≤ 70 then some (c.toNat - 55)
  else none

/-- `strstr`. -/
def strstr (needle : List UInt8) : List UInt8 → Option (List UInt8)
  | [] => if needle = [] then some [] else none
  | c :: s => if needle <+: c :: s then some (c :: s) else strstr needle s

/-- `strchr`. -/
def strchr (c : UInt8) : List UInt8 → Option (List UInt8)
  | [] => none
  | d :: s => if d = c then some (d :: s) else strchr c s

/-- `sscanf(s, "%02x", &byte)` cut to a byte: white space does not count, a sign
and `0x` do. -/
def sscanfHexByte (s : List UInt8) : Option UInt8 :=
  let field := (s.dropWhile isSpace).take 2
  let neg := field.head? == some 45
  let field :=
    if field.head? == some 45 || field.head? == some 43 then field.tail else field
  match (field.map hexValue).takeWhile Option.isSome with
  | [] => none
  | digits =>
      let value := UInt8.ofNat
        (digits.foldl (fun acc d => 16 * acc + d.getD 0) 0)
      some (if neg then 0 - value else value)

/-- A number in decimal. -/
def decimal (n : ℕ) : List UInt8 :=
  (Nat.toDigits 10 n).map fun c => c.toNat.toUInt8

def isDigit (c : UInt8) : Bool :=
  48 ≤ c && c ≤ 57

/-- What decimal digits stand for. -/
def decimalValue (digits : List UInt8) : ℕ :=
  digits.foldl (fun acc d => 10 * acc + (d.toNat - 48)) 0

/-- `strtoll(s, NULL, 10)`: white space, a sign and the digits up to the first other
character, cut to 64 bits. -/
def strtoll (s : List UInt8) : ℤ :=
  let t := s.dropWhile isSpace
  let digits :=
    if t.head? = some 45 ∨ t.head? = some 43 then t.tail.takeWhile isDigit
    else t.takeWhile isDigit
  if t.head? = some 45 then max (-2 ^ 63) (-decimalValue digits)
  else min (2 ^ 63 - 1) (decimalValue digits)

/-- `atoi`, whose result is the low half of that of `strtol`. -/
def atoi (s : List UInt8) : ℤ :=
  (strtoll s).bmod (2 ^ 32)

/-! ## Strings in buffers -/

theorem cstr_of_not_mem {s : List UInt8} (h : 0 ∉ s) : cstr s = s := by
  refine List.takeWhile_eq_self_iff.mpr fun c hc => ?_
  rw [decide_eq_true_iff]
  rintro rfl
  exact h hc

theorem not_mem_cstr (s : List UInt8) : 0 ∉ cstr s := by
  intro hmem
  simpa using List.mem_takeWhile_imp hmem

/-! ## Hexadecimal text -/

theorem hexValue_of_isDigit {c : UInt8} (h : isDigit c = true) : (hexValue c).isSome := by
  rw [isDigit, Bool.and_eq_true, decide_eq_true_iff, decide_eq_true_iff] at h
  rw [hexValue, if_pos h]
  rfl

theorem hexValue_hexDigit {n : ℕ} (h : n < 16) : hexValue (hexDigit n) = some n := by
  have hall : ∀ n < 16, hexValue (hexDigit n) = some n := by decide
  exact hall n h

theorem isSpace_hexDigit {n : ℕ} (h : n < 16) : isSpace (hexDigit n) = false := by
  have hall : ∀ n < 16, isSpace (hexDigit n) = false := by decide
  exact hall n h

/-- A digit is none of the other characters. -/
theorem ne_of_hexValue {c d : UInt8} (hc : (hexValue c).isSome) (hd : hexValue d = none) :
    c ≠ d := by
  rintro rfl
  rw [hd] at hc
  cases hc

theorem le_of_hexValue {c : UInt8} (hc : (hexValue c).isSome) : 48 ≤ c := by
  by_contra hlt
  simp only [UInt8.le_iff_toNat_le, UInt8.reduceToNat] at hlt
  have hnone : hexValue c = none := by
    simp only [hexValue, UInt8.le_iff_toNat_le, UInt8.reduceToNat]
    rw [if_neg (by omega), if_neg (by omega), if_neg (by omega)]
  rw [hnone] at hc
  cases hc

theorem isSpace_of_hexValue {c : UInt8} (hc : (hexValue c).isSome) : isSpace c = false := by
  have hge := le_of_hexValue hc
  have hne : c ≠ 32 := ne_of_hexValue hc rfl
  have hgt : ¬ c ≤ 13 := by
    simp only [UInt8.le_iff_toNat_le, UInt8.reduceToNat] at hge ⊢
    omega
  simp [isSpace, hne, hgt]

/-- Every character of a hexadecimal text is a digit. -/
theorem hexValue_of_mem_hexString {bytes : List UInt8} {c : UInt8}
    (h : c ∈ hexString bytes) : (hexValue c).isSome := by
  obtain ⟨b, -, hc⟩ := List.mem_flatMap.mp h
  have hb := b.toNat_lt
  simp only [List.mem_cons, List.not_mem_nil, or_false] at hc
  rcases hc with rfl | rfl
  · rw [hexValue_hexDigit (by omega)]
    rfl
  · rw [hexValue_hexDigit (by omega)]
    rfl

/-- `%02x` is read back by `sscanf`. -/
theorem sscanfHexByte_hexDigits (b : UInt8) (s : List UInt8) :
    sscanfHexByte (hexDigit (b.toNat / 16) :: hexDigit (b.toNat % 16) :: s) =
      some b := by
  have hb := b.toNat_lt
  have hhi : b.toNat / 16 < 16 := by omega
  have hlo : b.toNat % 16 < 16 := by omega
  have hsign : ∀ n < 16, hexDigit n ≠ 45 ∧ hexDigit n ≠ 43 := by decide
  obtain ⟨hminus, hplus⟩ := hsign _ hhi
  have hvalue : 16 * (b.toNat / 16) + b.toNat % 16 = b.toNat :=
    Nat.div_add_mod ..
  simp only [sscanfHexByte, List.dropWhile_cons, isSpace_hexDigit hhi,
    Bool.false_eq_true, if_false, List.take_succ_cons, List.take_zero,
    List.head?_cons, Option.some_beq_some, beq_eq_false_iff_ne.mpr hminus,
    beq_eq_false_iff_ne.mpr hplus, Bool.or_self, List.map_cons, List.map_nil,
    hexValue_hexDigit hhi, hexValue_hexDigit hlo]
  simp [hvalue]

/-- Bytes with the same text are the same. -/
theorem hexString_injective : Function.Injective hexString := by
  intro bytes bytes' h
  have hdigit {n n' : ℕ} (hn : n < 16) (hn' : n' < 16)
      (heq : hexDigit n = hexDigit n') : n = n' := by
    have hvalue := congrArg hexValue heq
    rw [hexValue_hexDigit hn, hexValue_hexDigit hn'] at hvalue
    exact Option.some.inj hvalue
  induction bytes generalizing bytes' with
  | nil =>
      cases bytes' with
      | nil => rfl
      | cons b bytes' => cases h
  | cons b bytes ih =>
      cases bytes' with
      | nil => cases h
      | cons b' bytes' =>
          have hb := b.toNat_lt
          have hb' := b'.toNat_lt
          obtain ⟨hhi, h⟩ := List.cons.inj h
          obtain ⟨hlo, hrest⟩ := List.cons.inj h
          have hquot := hdigit (by omega) (by omega) hhi
          have hmod := hdigit (by omega) (by omega) hlo
          have hbyte : b = b' := by
            apply UInt8.toNat_inj.mp
            omega
          rw [hbyte, ih hrest]

/-! ## Decimal text -/

theorem isDigit_of_mem_decimal {n : ℕ} {c : UInt8} (h : c ∈ decimal n) : isDigit c = true := by
  obtain ⟨d, hd, rfl⟩ := List.mem_map.mp h
  have hdigit := Nat.isDigit_of_mem_toDigits (by decide) (by decide) hd
  rw [Char.isDigit, Bool.and_eq_true, decide_eq_true_iff, decide_eq_true_iff] at hdigit
  have hge : 48 ≤ d.toNat := UInt32.le_iff_toNat_le.mp hdigit.1
  have hle : d.toNat ≤ 57 := UInt32.le_iff_toNat_le.mp hdigit.2
  have hsmall : d.toNat % 256 = d.toNat := Nat.mod_eq_of_lt (by omega)
  simp only [isDigit, Bool.and_eq_true, decide_eq_true_iff, UInt8.le_iff_toNat_le]
  simp [hsmall, hge, hle]

theorem decimal_ne_nil (n : ℕ) : decimal n ≠ [] := by
  rw [decimal, Ne, List.map_eq_nil_iff]
  exact Nat.toDigits_ne_nil

/-- A number is read back from its digits. -/
theorem decimalValue_decimal (n : ℕ) : decimalValue (decimal n) = n := by
  have hvalue : decimalValue (decimal n) = Nat.ofDigitChars 10 (Nat.toDigits 10 n) 0 := by
    have hdigits := fun c (hc : c ∈ Nat.toDigits 10 n) =>
      Nat.isDigit_of_mem_toDigits (by decide) (by decide) hc
    rw [decimalValue, decimal, List.foldl_map, Nat.ofDigitChars]
    generalize Nat.toDigits 10 n = digits at hdigits ⊢
    generalize 0 = acc
    induction digits generalizing acc with
    | nil => rfl
    | cons d digits ih =>
        obtain ⟨hd, hrest⟩ := List.forall_mem_cons.mp hdigits
        rw [Char.isDigit, Bool.and_eq_true, decide_eq_true_iff, decide_eq_true_iff] at hd
        have hle : d.toNat ≤ 57 := UInt32.le_iff_toNat_le.mp hd.2
        have hsmall : d.toNat % 256 = d.toNat := Nat.mod_eq_of_lt (by omega)
        rw [List.foldl_cons, List.foldl_cons, ih hrest]
        simp [hsmall]
  rw [hvalue, Nat.ofDigitChars_ten_toDigits]

theorem head_decimal_ne_zero {n : ℕ} (hn : n ≠ 0) {d : UInt8} {ds : List UInt8}
    (h : decimal n = d :: ds) : d ≠ 48 := by
  induction n using Nat.strong_induction_on generalizing ds with
  | _ n ih =>
      rw [decimal, Nat.toDigits_eq_if (by decide)] at h
      split at h
      · next hlt =>
          have hall : ∀ n < 10, n ≠ 0 → (n.digitChar.toNat.toUInt8 ≠ 48) := by decide
          rw [← (List.cons.inj h).1]
          exact hall n hlt hn
      · next hge =>
          rw [List.map_append] at h
          obtain ⟨d', ds', hds'⟩ := List.exists_cons_of_ne_nil (decimal_ne_nil (n / 10))
          have hhead : d' = d := by
            rw [← decimal, hds', List.cons_append] at h
            exact (List.cons.inj h).1
          rw [hhead] at hds'
          exact ih (n / 10) (by omega) (by omega) hds'

theorem length_decimal_le_iff {n k : ℕ} (h : 0 < k) : (decimal n).length ≤ k ↔ n < 10 ^ k := by
  rw [decimal, List.length_map]
  exact Nat.length_toDigits_le_iff (by decide) h

theorem strtoll_decimal (n : ℕ) : strtoll (decimal n) = min (2 ^ 63 - 1) (n : ℤ) := by
  have hdigits : ∀ c ∈ decimal n, isDigit c = true := fun _ hc => isDigit_of_mem_decimal hc
  obtain ⟨d, ds, hd⟩ := List.exists_cons_of_ne_nil (decimal_ne_nil n)
  have hfirst : (hexValue d).isSome :=
    hexValue_of_isDigit (hdigits d (by rw [hd]; exact .head _))
  have hspace : (decimal n).dropWhile isSpace = decimal n := by
    rw [hd, List.dropWhile_cons_of_neg (by simp [isSpace_of_hexValue hfirst])]
  have hminus : (decimal n).head? ≠ some 45 := by
    rw [hd, List.head?_cons, Ne, Option.some.injEq]
    exact ne_of_hexValue hfirst rfl
  have hplus : (decimal n).head? ≠ some 43 := by
    rw [hd, List.head?_cons, Ne, Option.some.injEq]
    exact ne_of_hexValue hfirst rfl
  have hall : (decimal n).takeWhile isDigit = decimal n :=
    List.takeWhile_eq_self_iff.mpr hdigits
  simp only [strtoll, hspace, hminus, hplus, or_self, if_false, hall, decimalValue_decimal]

/-- A search passes over text without the first character of what is searched. -/
theorem strstr_append {c : UInt8} {needle pre : List UInt8} (h : c ∉ pre)
    (s : List UInt8) : strstr (c :: needle) (pre ++ s) = strstr (c :: needle) s := by
  induction pre with
  | nil => rfl
  | cons d pre ih =>
      rw [List.mem_cons, not_or] at h
      obtain ⟨hd, hpre⟩ := h
      have hnot : ¬ c :: needle <+: d :: (pre ++ s) := by
        intro hprefix
        exact hd (List.cons_prefix_cons.mp hprefix).1
      rw [List.cons_append, strstr, if_neg hnot, ih hpre]

/-- It passes over an occurrence of the first character alone. -/
theorem strstr_cons {c d : UInt8} {needle s : List UInt8} (h : ¬ needle <+: s) :
    strstr (d :: needle) (c :: s) = strstr (d :: needle) s := by
  have hnot : ¬ d :: needle <+: c :: s := by
    intro hprefix
    exact h (List.cons_prefix_cons.mp hprefix).2
  rw [strstr, if_neg hnot]

/-- And stops where it is. -/
theorem strstr_found {needle : List UInt8} (h : needle ≠ []) (s : List UInt8) :
    strstr needle (needle ++ s) = some (needle ++ s) := by
  obtain ⟨c, needle, rfl⟩ := List.exists_cons_of_ne_nil h
  have hprefix : c :: needle <+: c :: (needle ++ s) :=
    List.prefix_append (c :: needle) s
  rw [List.cons_append, strstr, if_pos hprefix]

theorem strchr_eq_some {c : UInt8} {s t : List UInt8} (h : strchr c s = some t) :
    t = c :: t.tail := by
  induction s with
  | nil => cases h
  | cons d s ih =>
      rw [strchr] at h
      split at h
      · next hd =>
          obtain rfl := Option.some.inj h
          rw [hd]
          rfl
      · exact ih h

theorem strchr_append {c : UInt8} {pre : List UInt8} (h : c ∉ pre) (s : List UInt8) :
    strchr c (pre ++ s) = strchr c s := by
  induction pre with
  | nil => rfl
  | cons d pre ih =>
      rw [List.mem_cons, not_or] at h
      rw [List.cons_append, strchr, if_neg (Ne.symm h.1), ih h.2]

theorem prefix_of_strstr {needle s t : List UInt8} (h : strstr needle s = some t) :
    needle <+: t := by
  induction s with
  | nil =>
      rw [strstr] at h
      split at h
      · next hnil =>
          rw [hnil]
          exact List.nil_prefix
      · cases h
  | cons c s ih =>
      rw [strstr] at h
      split at h
      · next hprefix =>
          obtain rfl := Option.some.inj h
          exact hprefix
      · exact ih h

theorem suffix_of_strstr {needle s t : List UInt8} (h : strstr needle s = some t) : t <:+ s := by
  induction s with
  | nil =>
      rw [strstr] at h
      split at h
      · obtain rfl := Option.some.inj h
        exact List.suffix_rfl
      · cases h
  | cons c s ih =>
      rw [strstr] at h
      split at h
      · obtain rfl := Option.some.inj h
        exact List.suffix_rfl
      · exact (ih h).trans (List.suffix_cons c s)

/-! ## Separators -/

/-- A character that does not belong ends the run. -/
theorem length_takeWhile_append_cons_le {q : UInt8 → Bool} {x : UInt8} (hx : q x = false)
    (a b : List UInt8) : ((a ++ x :: b).takeWhile q).length ≤ a.length := by
  rw [List.takeWhile_append]
  split
  · rw [List.takeWhile_cons_of_neg (by simp [hx]), List.append_nil]
  · exact (List.takeWhile_prefix q).length_le

/-- What stands in front of the first separator, and what stands behind it. -/
theorem append_cons_inj {c : UInt8} {a b x y : List UInt8} (ha : c ∉ a) (hb : c ∉ b)
    (h : a ++ c :: x = b ++ c :: y) : a = b ∧ x = y := by
  have hfirst {a : List UInt8} (x : List UInt8) (ha : c ∉ a) :
      (a ++ c :: x).takeWhile (· != c) = a := by
    have hpass : ∀ d ∈ a, (d != c) = true := by
      intro d hd
      rw [bne_iff_ne]
      rintro rfl
      exact ha hd
    rw [List.takeWhile_append_of_pos hpass, List.takeWhile_cons_of_neg (by simp),
      List.append_nil]
  obtain rfl : a = b := by
    rw [← hfirst x ha, h, hfirst y hb]
  exact ⟨rfl, (List.cons.inj (List.append_cancel_left h)).2⟩

end LifiAuth
