import LifiAuth.Support.Json

/-!
# Written JSON texts

An object that is written member by member is read back, whatever its strings are, if they
are escaped.
-/

namespace LifiAuth.Support

namespace Json

/-! ## Reading strings back -/

/-- Characters that have a meaning inside of a string, each behind a backslash. -/
def escape (s : List UInt8) : List UInt8 :=
  s.flatMap fun c => if c = 34 ∨ c = 92 then [92, c] else [c]

theorem escape_cons (c : UInt8) (s : List UInt8) :
    escape (c :: s) = (if c = 34 ∨ c = 92 then [92, c] else [c]) ++ escape s := rfl

/-- Characters that stand for themselves. -/
def Plain (s : List UInt8) : Prop :=
  ∀ c ∈ s, 32 ≤ c ∧ c ≠ 34 ∧ c ≠ 92

instance (s : List UInt8) : Decidable (Plain s) :=
  inferInstanceAs (Decidable (∀ c ∈ s, 32 ≤ c ∧ c ≠ 34 ∧ c ≠ 92))

theorem Plain.escape {s : List UInt8} (h : Plain s) : escape s = s := by
  induction s with
  | nil => rfl
  | cons c s ih =>
      obtain ⟨hc, hs⟩ := List.forall_mem_cons.mp h
      rw [escape_cons, if_neg (not_or.mpr hc.2), ih hs]
      rfl

theorem scanUnits_escape {s : List UInt8} (h : ∀ c ∈ s, 32 ≤ c) (rest : List UInt8) :
    scanUnits (escape s ++ 34 :: rest) = some (s.map UInt8.toNat, rest) := by
  induction s with
  | nil => exact scanUnits_mark rest
  | cons c s ih =>
      obtain ⟨hc, hs⟩ := List.forall_mem_cons.mp h
      rw [escape_cons]
      by_cases hmark : c = 34 ∨ c = 92
      · have hvalue : escapeValue c = some c.toNat := by
          rcases hmark with rfl | rfl
          · rfl
          · rfl
        have hunicode : c ≠ 117 := by
          rcases hmark with rfl | rfl
          · decide
          · decide
        have htext : [92, c] ++ escape s ++ 34 :: rest = 92 :: c :: (escape s ++ 34 :: rest) :=
          rfl
        rw [if_pos hmark, htext, scanUnits_slash hunicode, hvalue, ih hs]
        rfl
      · rw [not_or] at hmark
        have htext : [c] ++ escape s ++ 34 :: rest = c :: (escape s ++ 34 :: rest) := rfl
        rw [if_neg (not_or.mpr hmark), htext, scanUnits_char hmark.1 hmark.2,
          if_neg (UInt8.not_lt.mpr hc), ih hs]
        rfl

/-- An escaped string is read back. -/
theorem scanString_escape {s : List UInt8} (h : ∀ c ∈ s, 32 ≤ c) (rest : List UInt8) :
    scanString (escape s ++ 34 :: rest) = some (s.map UInt8.toNat, rest) := by
  rw [scanString, scanUnits_escape h, Option.map_some, joinSurrogates_bytes]

/-! ## Written texts -/

/-- `text` is read as `v` within the depth `d`, in front of a comma or a brace. -/
structure Written (d : ℕ) (text : List UInt8) (v : Json) : Prop where
  start : ∃ c s, text = c :: s ∧ isBlank c = false
  scan : ∀ n c rest, d ≤ n → c = 44 ∨ c = 125 →
    scanValue n (text ++ c :: rest) = some (v, c :: rest)

theorem Written.mono {d d' : ℕ} {text : List UInt8} {v : Json} (h : Written d text v)
    (hd : d ≤ d') : Written d' text v :=
  ⟨h.start, fun n c rest hn => h.scan n c rest (hd.trans hn)⟩

theorem skipBlanks_cons {c : UInt8} (hc : isBlank c = false) (s : List UInt8) :
    skipBlanks (c :: s) = c :: s :=
  List.dropWhile_cons_of_neg (by rw [hc]; exact Bool.false_ne_true)

theorem Written.skipBlanks_append {d : ℕ} {text : List UInt8} {v : Json}
    (h : Written d text v) (s : List UInt8) : skipBlanks (text ++ s) = text ++ s := by
  obtain ⟨c, t, rfl, hc⟩ := h.start
  exact skipBlanks_cons hc (t ++ s)

theorem written_string {s : List UInt8} (h : ∀ c ∈ s, 32 ≤ c) :
    Written 1 (34 :: (escape s ++ [34])) (str (s.map UInt8.toNat)) := by
  refine ⟨⟨34, _, rfl, rfl⟩, ?_⟩
  intro n c rest hn _
  obtain ⟨n, rfl⟩ := Nat.exists_eq_add_of_le' hn
  have htext : 34 :: (escape s ++ [34]) ++ c :: rest =
      34 :: (escape s ++ 34 :: c :: rest) := by simp
  rw [htext, scanValue.eq_def]
  simp only [scanString_escape h]
  rfl

/-- A first digit is no zero, unless it is the only one. -/
theorem wholeDigits_decimal (n : ℕ) {c : UInt8} (hc : isDigit c = false) (rest : List UInt8) :
    wholeDigits (decimal n ++ c :: rest) = decimal n := by
  have htake : (decimal n ++ c :: rest).takeWhile isDigit = decimal n := by
    rw [List.takeWhile_append_of_pos fun d hd => isDigit_of_mem_decimal hd,
      List.takeWhile_cons_of_neg (by rw [hc]; exact Bool.false_ne_true), List.append_nil]
  by_cases hn : n = 0
  · rw [hn]
    rfl
  · have hhead : ∀ t, decimal n ++ c :: rest ≠ 48 :: t := by
      intro t ht
      obtain ⟨d, ds, hds⟩ := List.exists_cons_of_ne_nil (decimal_ne_nil n)
      rw [hds, List.cons_append] at ht
      exact head_decimal_ne_zero hn hds (List.cons.inj ht).1
    rw [wholeDigits]
    · exact htake
    · exact hhead

theorem written_decimal (k : ℕ) : Written 1 (decimal k) (int k) := by
  obtain ⟨d, ds, hds⟩ := List.exists_cons_of_ne_nil (decimal_ne_nil k)
  have hdigit : isDigit d = true := isDigit_of_mem_decimal (by rw [hds]; exact .head _)
  have hge : 48 ≤ d ∧ d ≤ 57 := by simpa [isDigit] using hdigit
  have hne (c : UInt8) (hc : isDigit c = false) : d ≠ c := by
    rintro rfl
    rw [hc] at hdigit
    cases hdigit
  refine ⟨⟨d, ds, hds, ?_⟩, ?_⟩
  · simp [isBlank, hne 32 rfl, hne 9 rfl, hne 10 rfl, hne 13 rfl]
  · intro n c rest hn hc
    obtain ⟨n, rfl⟩ := Nat.exists_eq_add_of_le' hn
    have hend : isDigit c = false ∧ fraction (c :: rest) = [] ∧ exponent (c :: rest) = [] := by
      rcases hc with rfl | rfl
      · exact ⟨rfl, rfl, by simp [exponent]⟩
      · exact ⟨rfl, rfl, by simp [exponent]⟩
    have hunsigned : scanUnsigned false (decimal k ++ c :: rest) = some (int k, c :: rest) := by
      simp only [scanUnsigned, wholeDigits_decimal k hend.1, List.drop_left, hend.2.1,
        List.length_nil, List.drop_zero, hend.2.2, decimal_ne_nil, if_false, and_self, if_true,
        decimalValue_decimal, Bool.false_eq_true]
    have hscalar : (scanNumber (decimal k ++ c :: rest)).or
        (scanConstant (decimal k ++ c :: rest)) = some (int k, c :: rest) := by
      have hsign : (decimal k ++ c :: rest).head? ≠ some 45 := by
        rw [hds, List.cons_append, List.head?_cons, Ne, Option.some.injEq]
        exact hne 45 rfl
      rw [scanNumber, if_neg hsign, hunsigned, Option.some_or]
    rw [← hscalar, hds, List.cons_append, scanValue.eq_def]
    simp only
    split
    · next heq => exact absurd (List.cons.inj heq).1 (hne 34 rfl)
    · next heq => exact absurd (List.cons.inj heq).1 (hne 123 rfl)
    · next heq => exact absurd (List.cons.inj heq).1 (hne 91 rfl)
    · rfl

/-! ## Written objects -/

/-- A member: its name, the text of its value, and the value. -/
structure Member where
  name : List UInt8
  text : List UInt8
  value : Json

/-- A name that stands for itself, and a value that is read from its text. -/
structure Member.Reads (d : ℕ) (m : Member) : Prop where
  name : Plain m.name
  value : Written d m.text m.value

def Member.entry (m : Member) : List ℕ × Json :=
  (m.name.map UInt8.toNat, m.value)

/-- Members up to the closing brace. -/
def membersText : List Member → List UInt8
  | [] => [125]
  | [m] => 34 :: (m.name ++ 34 :: 58 :: (m.text ++ [125]))
  | m :: ms => 34 :: (m.name ++ 34 :: 58 :: (m.text ++ 44 :: membersText ms))

def objectText (ms : List Member) : List UInt8 :=
  123 :: membersText ms

theorem scanString_name {name : List UInt8} (h : Plain name) (rest : List UInt8) :
    scanString (name ++ 34 :: rest) = some (name.map UInt8.toNat, rest) := by
  have hread := scanString_escape (fun c hc => (h c hc).1) rest
  rwa [h.escape] at hread

/-- The scan of one member, up to the comma or the brace behind it. -/
theorem scanMembers_member {d n : ℕ} {m : Member} (h : m.Reads d) (hn : d ≤ n) {c : UInt8}
    (hc : c = 44 ∨ c = 125) (rest : List UInt8) :
    scanMembers (n + 1) (34 :: (m.name ++ 34 :: 58 :: (m.text ++ c :: rest))) =
      if c = 125 then some ([m.entry], rest)
      else (scanMembers n (skipBlanks rest)).map fun r => (m.entry :: r.1, r.2) := by
  have hcolon : skipBlanks (58 :: (m.text ++ c :: rest)) = 58 :: (m.text ++ c :: rest) :=
    skipBlanks_cons rfl _
  have hend : skipBlanks (c :: rest) = c :: rest := by
    rcases hc with rfl | rfl
    · exact skipBlanks_cons rfl rest
    · exact skipBlanks_cons rfl rest
  rw [scanMembers.eq_def]
  simp only [scanString_name h.name, Option.bind_some, hcolon, h.value.skipBlanks_append,
    h.value.scan n c rest hn hc, hend]
  rcases hc with rfl | rfl
  · rfl
  · rfl

theorem scanMembers_membersText {d n : ℕ} {ms : List Member} (hne : ms ≠ [])
    (h : ∀ m ∈ ms, m.Reads d) (hn : d + ms.length ≤ n) (rest : List UInt8) :
    scanMembers n (membersText ms ++ rest) = some (ms.map Member.entry, rest) := by
  induction ms generalizing n with
  | nil => exact absurd rfl hne
  | cons m ms ih =>
      obtain ⟨hm, hms⟩ := List.forall_mem_cons.mp h
      rw [List.length_cons] at hn
      obtain ⟨n, rfl⟩ := Nat.exists_eq_add_of_le' (show 1 ≤ n by omega)
      rcases ms with _ | ⟨m', ms⟩
      · have htext : membersText [m] ++ rest =
            34 :: (m.name ++ 34 :: 58 :: (m.text ++ 125 :: rest)) := by simp [membersText]
        rw [htext, scanMembers_member hm (by omega) (Or.inr rfl), if_pos rfl]
        rfl
      · have htext : membersText (m :: m' :: ms) ++ rest =
            34 :: (m.name ++ 34 :: 58 :: (m.text ++ 44 :: (membersText (m' :: ms) ++ rest))) := by
          simp [membersText]
        have hstart : skipBlanks (membersText (m' :: ms) ++ rest) =
            membersText (m' :: ms) ++ rest := by
          rcases ms with _ | ⟨m'', ms⟩
          · exact skipBlanks_cons rfl _
          · exact skipBlanks_cons rfl _
        rw [htext, scanMembers_member hm (by omega) (Or.inl rfl), if_neg (by decide), hstart,
          ih (List.cons_ne_nil _ _) hms (by omega)]
        rfl

theorem scanValue_objectText {d n : ℕ} {ms : List Member} (hne : ms ≠ [])
    (h : ∀ m ∈ ms, m.Reads d) (hn : d + ms.length < n) (rest : List UInt8) :
    scanValue n (objectText ms ++ rest) = some (obj (ms.map Member.entry), rest) := by
  obtain ⟨n, rfl⟩ := Nat.exists_eq_add_of_le' (show 1 ≤ n by omega)
  have hmembers := scanMembers_membersText hne h (show d + ms.length ≤ n by omega) rest
  obtain ⟨s, hs⟩ : ∃ s, membersText ms ++ rest = 34 :: s := by
    rcases ms with _ | ⟨m, _ | ⟨m', ms⟩⟩
    · exact absurd rfl hne
    · exact ⟨_, rfl⟩
    · exact ⟨_, rfl⟩
  rw [objectText, List.cons_append, scanValue.eq_def]
  rw [hs] at hmembers ⊢
  simp only
  rw [skipBlanks_cons rfl]
  split
  · next heq => cases (List.cons.inj heq).1
  · rw [hmembers]
    rfl

theorem written_objectText {d : ℕ} {ms : List Member} (hne : ms ≠ [])
    (h : ∀ m ∈ ms, m.Reads d) :
    Written (d + ms.length + 1) (objectText ms) (obj (ms.map Member.entry)) :=
  ⟨⟨123, _, rfl, rfl⟩, fun _ c rest hn _ => scanValue_objectText hne h hn (c :: rest)⟩

/-- A written object is what `json.loads` reads from its text. -/
theorem loads_objectText {d : ℕ} {ms : List Member} (hne : ms ≠ [])
    (h : ∀ m ∈ ms, m.Reads d) (hlen : d + ms.length ≤ (objectText ms).length) :
    loads (objectText ms) = some (obj (ms.map Member.entry)) := by
  have hscan := scanValue_objectText hne h (Nat.lt_succ_of_le hlen) []
  rw [List.append_nil] at hscan
  have hstart : skipBlanks (objectText ms) = objectText ms := skipBlanks_cons rfl _
  rw [loads, hstart, hscan, Option.bind_some]
  rfl

/-! ## Members -/

/-- A string, with a backslash in front of the characters that need one. -/
def stringMember (name s : List UInt8) : Member :=
  ⟨name, 34 :: (escape s ++ [34]), str (s.map UInt8.toNat)⟩

def numberMember (name : List UInt8) (k : ℕ) : Member :=
  ⟨name, decimal k, int k⟩

def objectMember (name : List UInt8) (ms : List Member) : Member :=
  ⟨name, objectText ms, obj (ms.map Member.entry)⟩

theorem reads_stringMember {name s : List UInt8} (hname : Plain name)
    (h : ∀ c ∈ s, 32 ≤ c) {d : ℕ} (hd : 1 ≤ d) : (stringMember name s).Reads d :=
  ⟨hname, (written_string h).mono hd⟩

theorem reads_numberMember {name : List UInt8} (hname : Plain name) (k : ℕ) {d : ℕ}
    (hd : 1 ≤ d) : (numberMember name k).Reads d :=
  ⟨hname, (written_decimal k).mono hd⟩

theorem reads_objectMember {name : List UInt8} (hname : Plain name) {ms : List Member}
    (hne : ms ≠ []) {d d' : ℕ} (h : ∀ m ∈ ms, m.Reads d) (hd : d + ms.length + 1 ≤ d') :
    (objectMember name ms).Reads d' :=
  ⟨hname, (written_objectText hne h).mono hd⟩

end Json

end LifiAuth.Support
