import LifiAuth.Support.Text

/-!
# Unsigned numbers in text

`strtoul(s, &end, 10)` where `unsigned long` has 32 bits.  It passes over white space, a
sign and digits; without a digit it reads nothing and leaves `end` at `s`.
-/

namespace LifiAuth

/-- The length of the sign in front of the digits. -/
def signLength (s : List UInt8) : ℕ :=
  if s.head? = some 45 ∨ s.head? = some 43 then 1 else 0

/-- The digits that `strtoul` finds. -/
def strtoulDigits (s : List UInt8) : List UInt8 :=
  let t := s.dropWhile isSpace
  (t.drop (signLength t)).takeWhile isDigit

/-- `strtoul(s, NULL, 10)`. -/
def strtoul (s : List UInt8) : UInt32 :=
  let value := decimalValue (strtoulDigits s)
  if 2 ^ 32 ≤ value then UInt32.ofNat (2 ^ 32 - 1)
  else if (s.dropWhile isSpace).head? = some 45 then 0 - UInt32.ofNat value
  else UInt32.ofNat value

/-- How many characters `strtoul` passes over until it stops. -/
def strtoulScan (s : List UInt8) : ℕ :=
  (s.takeWhile isSpace).length + signLength (s.dropWhile isSpace) + (strtoulDigits s).length

/-- `end - s`. -/
def strtoulEnd (s : List UInt8) : ℕ :=
  if strtoulDigits s = [] then 0 else strtoulScan s

/-- White space, a sign and at least one digit. -/
structure NumeralParts (blanks sign digits : List UInt8) : Prop where
  blanks : ∀ c ∈ blanks, isSpace c = true
  sign : sign = [] ∨ sign = [45] ∨ sign = [43]
  ne_nil : digits ≠ []
  digits : ∀ c ∈ digits, isDigit c = true

/-- A number as `strtoul` reads it. -/
def IsNumeral (w : List UInt8) : Prop :=
  ∃ blanks sign digits, NumeralParts blanks sign digits ∧ w = blanks ++ (sign ++ digits)

/-! ## Bounds -/

theorem signLength_le (s : List UInt8) : signLength s ≤ s.length := by
  rw [signLength]
  split
  · next h =>
      cases s with
      | nil => simp at h
      | cons c s => simp
  · exact Nat.zero_le _

theorem strtoulScan_le (s : List UInt8) : strtoulScan s ≤ s.length := by
  have hspaces : (s.takeWhile isSpace).length + (s.dropWhile isSpace).length = s.length := by
    rw [← List.length_append, List.takeWhile_append_dropWhile]
  have hsign := signLength_le (s.dropWhile isSpace)
  have hdigits : (strtoulDigits s).length ≤
      (s.dropWhile isSpace).length - signLength (s.dropWhile isSpace) := by
    rw [strtoulDigits, ← List.length_drop]
    exact (List.takeWhile_prefix _).length_le
  rw [strtoulScan]
  omega

theorem strtoulEnd_le (s : List UInt8) : strtoulEnd s ≤ s.length := by
  rw [strtoulEnd]
  split
  · exact Nat.zero_le _
  · exact strtoulScan_le s

theorem strtoulDigits_eq_nil_of_strtoulEnd {s : List UInt8} (h : strtoulEnd s = 0) :
    strtoulDigits s = [] := by
  by_contra hne
  have hpos := List.length_pos_of_ne_nil hne
  rw [strtoulEnd, if_neg hne, strtoulScan] at h
  omega

/-- Where nothing is read the value is 0. -/
theorem strtoul_of_strtoulEnd_eq_zero {s : List UInt8} (h : strtoulEnd s = 0) :
    strtoul s = 0 := by
  simp [strtoul, strtoulDigits_eq_nil_of_strtoulEnd h, decimalValue]

/-! ## Numbers at the front of a text -/

theorem isSpace_of_isDigit {c : UInt8} (h : isDigit c = true) : isSpace c = false :=
  isSpace_of_hexValue (hexValue_of_isDigit h)

theorem ne_of_isDigit {c d : UInt8} (hc : isDigit c = true) (hd : hexValue d = none) : c ≠ d :=
  ne_of_hexValue (hexValue_of_isDigit hc) hd

namespace NumeralParts

variable {blanks sign digits : List UInt8} (h : NumeralParts blanks sign digits)
include h

/-- The sign and the first digit. -/
theorem head_sign (rest : List UInt8) : ∃ c t, sign ++ digits ++ rest = c :: t ∧
    isSpace c = false ∧ (c = 45 ↔ sign = [45]) ∧
      signLength (sign ++ digits ++ rest) = sign.length := by
  obtain ⟨d, ds, hd⟩ := List.exists_cons_of_ne_nil h.ne_nil
  have hdigit : isDigit d = true := h.digits d (by rw [hd]; exact List.mem_cons_self)
  have hminus : d ≠ 45 := ne_of_isDigit hdigit rfl
  have hplus : d ≠ 43 := ne_of_isDigit hdigit rfl
  rcases h.sign with hs | hs | hs
  · refine ⟨d, ds ++ rest, by simp [hs, hd], isSpace_of_isDigit hdigit, ?_, ?_⟩
    · simp [hs, hminus]
    · simp [hs, hd, signLength, hminus, hplus]
  · exact ⟨45, digits ++ rest, by simp [hs], by decide, by simp [hs], by simp [hs, signLength]⟩
  · exact ⟨43, digits ++ rest, by simp [hs], by decide, by simp [hs], by simp [hs, signLength]⟩

theorem spaces_append (rest : List UInt8) :
    (blanks ++ (sign ++ digits) ++ rest).takeWhile isSpace = blanks ∧
      (blanks ++ (sign ++ digits) ++ rest).dropWhile isSpace = sign ++ digits ++ rest := by
  obtain ⟨c, t, hct, hc, -⟩ := h.head_sign rest
  rw [List.append_assoc, hct]
  constructor
  · rw [List.takeWhile_append_of_pos h.blanks, List.takeWhile_cons_of_neg (by simp [hc]),
      List.append_nil]
  · rw [List.dropWhile_append_of_pos h.blanks, List.dropWhile_cons_of_neg (by simp [hc])]

theorem strtoulDigits_append {rest : List UInt8}
    (hrest : ∀ c ∈ rest.head?, isDigit c = false) :
    strtoulDigits (blanks ++ (sign ++ digits) ++ rest) = digits := by
  obtain ⟨c, t, -, -, -, hlen⟩ := h.head_sign rest
  rw [strtoulDigits, (h.spaces_append rest).2, hlen, List.append_assoc, List.drop_left,
    List.takeWhile_append_of_pos h.digits]
  cases rest with
  | nil => simp
  | cons c rest => simp [hrest c rfl]

/-- The value depends on the sign and the digits only. -/
theorem strtoul_append {rest : List UInt8} (hrest : ∀ c ∈ rest.head?, isDigit c = false) :
    strtoul (blanks ++ (sign ++ digits) ++ rest) =
      if 2 ^ 32 ≤ decimalValue digits then UInt32.ofNat (2 ^ 32 - 1)
      else if sign = [45] then 0 - UInt32.ofNat (decimalValue digits)
      else UInt32.ofNat (decimalValue digits) := by
  obtain ⟨c, t, hct, -, hminus, -⟩ := h.head_sign rest
  rw [strtoul, h.strtoulDigits_append hrest, (h.spaces_append rest).2, hct, List.head?_cons]
  simp only [Option.some.injEq, hminus]

end NumeralParts

section

variable {w rest : List UInt8} (hw : IsNumeral w)
  (hrest : ∀ c ∈ rest.head?, isDigit c = false)
include hw hrest

/-- `strtoul` reads a number up to its end. -/
theorem IsNumeral.strtoulEnd_append : strtoulEnd (w ++ rest) = w.length := by
  obtain ⟨blanks, sign, digits, h, rfl⟩ := hw
  obtain ⟨c, t, -, -, -, hlen⟩ := h.head_sign rest
  obtain ⟨htake, hdrop⟩ := h.spaces_append rest
  rw [strtoulEnd, h.strtoulDigits_append hrest, if_neg h.ne_nil, strtoulScan, htake, hdrop,
    hlen, h.strtoulDigits_append hrest]
  simp only [List.length_append]
  omega

/-- What follows a number does not change its value. -/
theorem IsNumeral.strtoul_append : strtoul (w ++ rest) = strtoul w := by
  obtain ⟨blanks, sign, digits, h, rfl⟩ := hw
  have hnone : ∀ c ∈ ([] : List UInt8).head?, isDigit c = false := by simp
  have hself := h.strtoul_append hnone
  rw [List.append_nil] at hself
  rw [hself, h.strtoul_append hrest]

end

/-- Where something is read, there is a number at the front of the text. -/
theorem isNumeral_of_strtoulEnd {s : List UInt8} (h : strtoulEnd s ≠ 0) :
    ∃ w rest, s = w ++ rest ∧ IsNumeral w ∧ ∀ c ∈ rest.head?, isDigit c = false := by
  have hne : strtoulDigits s ≠ [] := by
    intro hnil
    exact h (if_pos hnil)
  have hsplit : s = s.takeWhile isSpace ++ s.dropWhile isSpace :=
    List.takeWhile_append_dropWhile.symm
  generalize ht : s.dropWhile isSpace = t at hsplit
  have hdigits : strtoulDigits s = (t.drop (signLength t)).takeWhile isDigit := by
    rw [strtoulDigits, ht]
  refine ⟨s.takeWhile isSpace ++ (t.take (signLength t) ++ strtoulDigits s),
    (t.drop (signLength t)).dropWhile isDigit, ?_, ?_, ?_⟩
  · rw [hdigits, List.append_assoc, List.append_assoc, List.takeWhile_append_dropWhile,
      List.take_append_drop]
    exact hsplit
  · refine ⟨_, _, _, ⟨?_, ?_, hne, ?_⟩, rfl⟩
    · intro c hc
      exact List.mem_takeWhile_imp hc
    · rw [signLength]
      split
      · next hsign =>
          cases t with
          | nil => simp at hsign
          | cons c t => simpa using hsign
      · exact Or.inl rfl
    · intro c hc
      rw [hdigits] at hc
      exact List.mem_takeWhile_imp hc
  · intro c hc
    have hstop := List.head?_dropWhile_not isDigit (t.drop (signLength t))
    rw [Option.mem_def.mp hc] at hstop
    exact hstop

/-- Digits make a number. -/
theorem isNumeral_decimal (n : ℕ) : IsNumeral (decimal n) :=
  ⟨[], [], decimal n, ⟨by simp, Or.inl rfl, decimal_ne_nil n, fun _ hc =>
    isDigit_of_mem_decimal hc⟩, rfl⟩

/-- A number is read back from its digits, whatever follows them. -/
theorem strtoul_decimal (n : UInt32) {rest : List UInt8}
    (hrest : ∀ c ∈ rest.head?, isDigit c = false) :
    strtoul (decimal n.toNat ++ rest) = n := by
  have hparts : NumeralParts [] [] (decimal n.toNat) :=
    ⟨by simp, Or.inl rfl, decimal_ne_nil _, fun _ hc => isDigit_of_mem_decimal hc⟩
  have hvalue := hparts.strtoul_append hrest
  have hlt := n.toNat_lt
  rw [decimalValue_decimal, if_neg (by omega), if_neg (by simp)] at hvalue
  simpa using hvalue

end LifiAuth
