import LifiAuth.Support.Text

/-!
# JSON texts in ASCII

What `json.loads` of Python makes of a text of ASCII characters: the decoder reads from left
to right, takes the first quotation mark without a backslash for the end of a string, and
accepts nothing but blanks behind the value.  Strings are lists of code points.
-/

namespace LifiAuth.Support

inductive Json where
  | null
  | bool (b : Bool)
  | int (n : ℤ)
  /-- A number with a fraction or an exponent, or one of the constants, as it is written. -/
  | float (text : List UInt8)
  | str (s : List ℕ)
  | arr (items : List Json)
  | obj (fields : List (List ℕ × Json))

namespace Json

/-- The value of a name; the last one counts. -/
def field (name : List ℕ) : Json → Option Json
  | obj fields => (fields.reverse.find? fun f => f.1 == name).map Prod.snd
  | _ => none

def isBlank (c : UInt8) : Bool :=
  c == 32 || c == 9 || c == 10 || c == 13

def skipBlanks (s : List UInt8) : List UInt8 :=
  s.dropWhile isBlank

/-! ## Strings -/

/-- What a backslash and one character stand for. -/
def escapeValue (c : UInt8) : Option ℕ :=
  if c = 34 ∨ c = 92 ∨ c = 47 then some c.toNat
  else if c = 98 then some 8
  else if c = 102 then some 12
  else if c = 110 then some 10
  else if c = 114 then some 13
  else if c = 116 then some 9
  else none

/-- The four digits of `\u`. -/
def hexUnit (a b c d : UInt8) : Option ℕ :=
  match hexValue a, hexValue b, hexValue c, hexValue d with
  | some a, some b, some c, some d => some (16 * (16 * (16 * a + b) + c) + d)
  | _, _, _, _ => none

/-- The units of a string and what follows its closing mark. -/
def scanUnits : List UInt8 → Option (List ℕ × List UInt8)
  | [] => none
  | c :: s =>
      if c = 34 then some ([], s)
      else if c = 92 then
        match s with
        | [] => none
        | e :: s =>
            if e = 117 then
              match s with
              | a :: b :: c :: d :: s =>
                  (hexUnit a b c d).bind fun u =>
                    (scanUnits s).map fun r => (u :: r.1, r.2)
              | _ => none
            else
              (escapeValue e).bind fun u => (scanUnits s).map fun r => (u :: r.1, r.2)
      else if c < 32 then none
      else (scanUnits s).map fun r => (c.toNat :: r.1, r.2)

/-- Two escaped surrogates are one code point. -/
def joinSurrogates : List ℕ → List ℕ
  | hi :: lo :: us =>
      if 0xD800 ≤ hi ∧ hi < 0xDC00 ∧ 0xDC00 ≤ lo ∧ lo < 0xE000 then
        (0x10000 + (hi - 0xD800) * 1024 + (lo - 0xDC00)) :: joinSurrogates us
      else hi :: joinSurrogates (lo :: us)
  | us => us

def scanString (s : List UInt8) : Option (List ℕ × List UInt8) :=
  (scanUnits s).map fun r => (joinSurrogates r.1, r.2)

/-! ## Numbers and constants -/

/-- The digits of a whole number, where a zero is followed by no more of them. -/
def wholeDigits (s : List UInt8) : List UInt8 :=
  match s with
  | 48 :: _ => [48]
  | _ => s.takeWhile isDigit

/-- A point and digits. -/
def fraction (s : List UInt8) : List UInt8 :=
  match s with
  | 46 :: s => if s.takeWhile isDigit = [] then [] else 46 :: s.takeWhile isDigit
  | _ => []

/-- `e`, a sign and digits. -/
def exponent (s : List UInt8) : List UInt8 :=
  match s with
  | e :: s =>
      let sign := s.takeWhile fun c => c == 43 || c == 45
      let sign := sign.take 1
      let digits := (s.drop sign.length).takeWhile isDigit
      if (e = 101 ∨ e = 69) ∧ digits ≠ [] then e :: (sign ++ digits) else []
  | [] => []

/-- A number behind its sign. -/
def scanUnsigned (neg : Bool) (s : List UInt8) : Option (Json × List UInt8) :=
  let whole := wholeDigits s
  let t := s.drop whole.length
  let frac := fraction t
  let exp := exponent (t.drop frac.length)
  if whole = [] then none
  else if frac = [] ∧ exp = [] then
    some (int (if neg then -decimalValue whole else decimalValue whole), t)
  else
    some (float ((if neg then [45] else []) ++ whole ++ frac ++ exp),
      (t.drop frac.length).drop exp.length)

def scanNumber (s : List UInt8) : Option (Json × List UInt8) :=
  if s.head? = some 45 then scanUnsigned true s.tail else scanUnsigned false s

/-- The named values and what they stand for. -/
def constants : List (List UInt8 × Json) :=
  [(ascii "null", null), (ascii "true", bool true), (ascii "false", bool false),
    (ascii "NaN", float (ascii "NaN")), (ascii "Infinity", float (ascii "Infinity")),
    (ascii "-Infinity", float (ascii "-Infinity"))]

def scanConstant (s : List UInt8) : Option (Json × List UInt8) :=
  (constants.find? fun c => c.1.isPrefixOf s).map fun c => (c.2, s.drop c.1.length)

/-! ## Values -/

mutual

/-- One value and what follows it; the number bounds the depth of the search. -/
def scanValue : ℕ → List UInt8 → Option (Json × List UInt8)
  | 0, _ => none
  | n + 1, s =>
      match s with
      | 34 :: s => (scanString s).map fun r => (str r.1, r.2)
      | 123 :: s =>
          match skipBlanks s with
          | 125 :: s => some (obj [], s)
          | s => (scanMembers n s).map fun r => (obj r.1, r.2)
      | 91 :: s =>
          match skipBlanks s with
          | 93 :: s => some (arr [], s)
          | s => (scanItems n s).map fun r => (arr r.1, r.2)
      | s => (scanNumber s).or (scanConstant s)

/-- The members of an object up to its brace. -/
def scanMembers : ℕ → List UInt8 → Option (List (List ℕ × Json) × List UInt8)
  | 0, _ => none
  | n + 1, s =>
      match s with
      | 34 :: s =>
          (scanString s).bind fun key =>
            match skipBlanks key.2 with
            | 58 :: s =>
                (scanValue n (skipBlanks s)).bind fun v =>
                  match skipBlanks v.2 with
                  | 125 :: s => some ([(key.1, v.1)], s)
                  | 44 :: s =>
                      (scanMembers n (skipBlanks s)).map fun r => ((key.1, v.1) :: r.1, r.2)
                  | _ => none
            | _ => none
      | _ => none

/-- The items of an array up to its bracket. -/
def scanItems : ℕ → List UInt8 → Option (List Json × List UInt8)
  | 0, _ => none
  | n + 1, s =>
      (scanValue n s).bind fun v =>
        match skipBlanks v.2 with
        | 93 :: s => some ([v.1], s)
        | 44 :: s => (scanItems n (skipBlanks s)).map fun r => (v.1 :: r.1, r.2)
        | _ => none

end

/-- `json.loads`. -/
def loads (s : List UInt8) : Option Json :=
  (scanValue (s.length + 1) (skipBlanks s)).bind fun r =>
    if skipBlanks r.2 = [] then some r.1 else none

/-! ## One step of a string -/

theorem scanUnits_mark (s : List UInt8) : scanUnits (34 :: s) = some ([], s) := by
  rw [scanUnits.eq_def]
  rfl

theorem scanUnits_char {c : UInt8} (hmark : c ≠ 34) (hslash : c ≠ 92) (s : List UInt8) :
    scanUnits (c :: s) =
      if c < 32 then none else (scanUnits s).map fun r => (c.toNat :: r.1, r.2) := by
  rw [scanUnits.eq_def]
  simp only [if_neg hmark, if_neg hslash]

theorem scanUnits_slash {e : UInt8} (he : e ≠ 117) (s : List UInt8) :
    scanUnits (92 :: e :: s) =
      (escapeValue e).bind fun u => (scanUnits s).map fun r => (u :: r.1, r.2) := by
  rw [scanUnits.eq_def]
  simp only [if_neg he]
  rfl

theorem scanUnits_unicode (a b c d : UInt8) (s : List UInt8) :
    scanUnits (92 :: 117 :: a :: b :: c :: d :: s) =
      (hexUnit a b c d).bind fun u => (scanUnits s).map fun r => (u :: r.1, r.2) := by
  rw [scanUnits.eq_def]
  rfl

theorem joinSurrogates_of_lt {us : List ℕ} (h : ∀ u ∈ us, u < 0xD800) :
    joinSurrogates us = us := by
  induction us with
  | nil => rfl
  | cons u us ih =>
      obtain ⟨hu, hus⟩ := List.forall_mem_cons.mp h
      rcases us with _ | ⟨lo, us⟩
      · rfl
      · rw [joinSurrogates, if_neg (by omega), ih hus]

theorem joinSurrogates_bytes (s : List UInt8) :
    joinSurrogates (s.map UInt8.toNat) = s.map UInt8.toNat := by
  refine joinSurrogates_of_lt (List.forall_mem_map.mpr fun c _ => ?_)
  exact lt_trans c.toNat_lt (by decide)

end Json

end LifiAuth.Support
