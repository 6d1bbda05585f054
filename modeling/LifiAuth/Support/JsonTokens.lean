import LifiAuth.Support.Json

/-!
# Where a decoded string comes from

A string in a decoded object comes from a stretch of the text between two marks, which a
comma or the end of the object follows.
-/

namespace LifiAuth.Support

namespace Json

/-! ## Tokens -/

/-- The text between the marks of a string, and its units. -/
inductive Token : List UInt8 → List ℕ → Prop where
  | nil : Token [] []
  | char {c : UInt8} {t : List UInt8} {us : List ℕ} (hmark : c ≠ 34) (hslash : c ≠ 92)
      (h : Token t us) : Token (c :: t) (c.toNat :: us)
  | escape (e : UInt8) (u : ℕ) {t : List UInt8} {us : List ℕ} (h : Token t us) :
      Token (92 :: e :: t) (u :: us)
  | unicode {a b c d : UInt8} (u : ℕ) {t : List UInt8} {us : List ℕ}
      (hdigits : 34 ∉ [a, b, c, d]) (h : Token t us) :
      Token (92 :: 117 :: a :: b :: c :: d :: t) (u :: us)

theorem hexUnit_digits {a b c d : UInt8} {u : ℕ} (h : hexUnit a b c d = some u) :
    34 ∉ [a, b, c, d] := by
  intro hmem
  have hmark : hexValue 34 = none := rfl
  simp only [List.mem_cons, List.not_mem_nil, or_false] at hmem
  rcases hmem with rfl | rfl | rfl | rfl
  all_goals simp [hexUnit, hmark] at h

/-- A string ends at the first mark that is no part of it. -/
theorem token_of_scanUnits {s : List UInt8} {r : List ℕ × List UInt8}
    (h : scanUnits s = some r) : ∃ t, s = t ++ 34 :: r.2 ∧ Token t r.1 := by
  induction hlen : s.length using Nat.strong_induction_on generalizing s r with
  | _ n ih =>
      -- What is left behind one character or one escape is shorter.
      have hrest {s' : List UInt8} {u : ℕ} (hs' : s'.length < n)
          (h : ((scanUnits s').map fun r => (u :: r.1, r.2)) = some r) :
          ∃ t us, r = (u :: us, r.2) ∧ s' = t ++ 34 :: r.2 ∧ Token t us := by
        obtain ⟨r', hr', rfl⟩ := Option.map_eq_some_iff.mp h
        obtain ⟨t, ht, htoken⟩ := ih _ hs' hr' rfl
        exact ⟨t, r'.1, rfl, ht, htoken⟩
      rcases s with _ | ⟨c, s⟩
      · cases h
      rw [List.length_cons] at hlen
      by_cases hmark : c = 34
      · subst hmark
        rw [scanUnits_mark] at h
        obtain rfl := Option.some.inj h
        exact ⟨[], rfl, .nil⟩
      by_cases hslash : c = 92
      · subst hslash
        rcases s with _ | ⟨e, s⟩
        · cases h
        rw [List.length_cons] at hlen
        by_cases he : e = 117
        · subst he
          rcases s with _ | ⟨a, _ | ⟨b, _ | ⟨c, _ | ⟨d, s⟩⟩⟩⟩
          · cases h
          · cases h
          · cases h
          · cases h
          · rw [scanUnits_unicode] at h
            obtain ⟨u, hu, h⟩ := Option.bind_eq_some_iff.mp h
            obtain ⟨t, us, hr, ht, htoken⟩ := hrest (by simp at hlen; omega) h
            rw [hr]
            exact ⟨92 :: 117 :: a :: b :: c :: d :: t, by rw [ht]; rfl,
              .unicode u (hexUnit_digits hu) htoken⟩
        · rw [scanUnits_slash he] at h
          obtain ⟨u, -, h⟩ := Option.bind_eq_some_iff.mp h
          obtain ⟨t, us, hr, ht, htoken⟩ := hrest (by omega) h
          rw [hr]
          exact ⟨92 :: e :: t, by rw [ht]; rfl, .escape e u htoken⟩
      · rw [scanUnits_char hmark hslash] at h
        split at h
        · cases h
        · obtain ⟨t, us, hr, ht, htoken⟩ := hrest (by omega) h
          rw [hr]
          exact ⟨c :: t, by rw [ht]; rfl, .char hmark hslash htoken⟩

namespace Token

variable {t : List UInt8} {us : List ℕ}

/-- Without a backslash, the text stands for itself. -/
theorem plain (h : Token t us) (hslash : 92 ∉ t) : us = t.map UInt8.toNat ∧ 34 ∉ t := by
  induction h with
  | nil => exact ⟨rfl, List.not_mem_nil⟩
  | char hmark _ _ ih =>
      rw [List.mem_cons, not_or] at hslash
      obtain ⟨hus, ht⟩ := ih hslash.2
      rw [hus, List.mem_cons, not_or]
      exact ⟨rfl, hmark.symm, ht⟩
  | escape => exact absurd List.mem_cons_self hslash
  | unicode => exact absurd List.mem_cons_self hslash

theorem length_le (h : Token t us) : us.length ≤ t.length := by
  induction h with
  | nil => exact Nat.le_refl 0
  | char _ _ _ ih => simpa using ih
  | escape _ _ _ ih =>
      simp only [List.length_cons]
      omega
  | unicode _ _ _ ih =>
      simp only [List.length_cons]
      omega

/-- With one, it stands for fewer units than it has characters. -/
theorem length_lt (h : Token t us) (hslash : 92 ∈ t) : us.length < t.length := by
  induction h with
  | nil => cases hslash
  | char _ hne _ ih =>
      have ht := (List.mem_cons.mp hslash).resolve_left hne.symm
      simpa using ih ht
  | escape _ _ h _ =>
      have hle := h.length_le
      simp only [List.length_cons]
      omega
  | unicode _ _ h _ =>
      have hle := h.length_le
      simp only [List.length_cons]
      omega

end Token

/-- Every mark in the text follows a backslash. -/
def Guarded (t : List UInt8) : Prop :=
  ∀ a b, t = a ++ 34 :: b → ∃ a', a = a' ++ [92]

theorem Guarded.cons {t : List UInt8} (h : Guarded t) {c : UInt8} (hc : c ≠ 34) :
    Guarded (c :: t) := by
  intro a b ht
  rcases a with _ | ⟨c', a⟩
  · exact absurd (List.cons.inj ht).1 hc
  · obtain ⟨a', rfl⟩ := h a b (List.cons.inj ht).2
    exact ⟨c' :: a', rfl⟩

theorem Guarded.escape {t : List UInt8} (h : Guarded t) (e : UInt8) :
    Guarded (92 :: e :: t) := by
  intro a b ht
  rcases a with _ | ⟨c, _ | ⟨d, a⟩⟩
  · cases (List.cons.inj ht).1
  · exact ⟨[], by rw [← (List.cons.inj ht).1]; rfl⟩
  · obtain ⟨a', rfl⟩ := h a b (List.cons.inj (List.cons.inj ht).2).2
    exact ⟨c :: d :: a', rfl⟩

theorem Token.guarded {t : List UInt8} {us : List ℕ} (h : Token t us) : Guarded t := by
  induction h with
  | nil =>
      intro a b ht
      simp at ht
  | char hmark _ _ ih => exact ih.cons hmark
  | escape e _ _ ih => exact ih.escape e
  | @unicode a b c d _ _ _ hdigits _ ih =>
      simp only [List.mem_cons, List.not_mem_nil, or_false, not_or] at hdigits
      obtain ⟨ha, hb, hc, hd⟩ := hdigits
      have hrest := ih.cons (Ne.symm hd)
      have hrest := hrest.cons (Ne.symm hc)
      have hrest := hrest.cons (Ne.symm hb)
      exact (hrest.cons (Ne.symm ha)).escape 117

/-- Behind text without backslashes and a mark, a string with one starts at that mark or
further on. -/
theorem Guarded.behind_mark {t before s pre rest : List UInt8} (h : Guarded t)
    (hbefore : 92 ∉ before) (hslash : 92 ∈ t)
    (heq : before ++ 34 :: s = pre ++ 34 :: (t ++ 34 :: rest)) :
    ∃ z, s = z ++ (t ++ 34 :: rest) := by
  rcases List.append_eq_append_iff.mp heq with ⟨w, -, hw⟩ | ⟨w, hpre, hw⟩
  · rcases w with _ | ⟨d, w⟩
    · exact ⟨[], (List.cons.inj hw).2⟩
    · refine ⟨w ++ [34], ?_⟩
      rw [(List.cons.inj hw).2]
      simp
  · rcases w with _ | ⟨d, w⟩
    · exact ⟨[], (List.cons.inj hw).2.symm⟩
    · exfalso
      have hclean : 92 ∉ w := fun hmem => hbefore (by rw [hpre]; simp [hmem])
      rcases List.append_eq_append_iff.mp (List.cons.inj hw).2 with
        ⟨u, hu, -⟩ | ⟨u, hu, hrest⟩
      · exact hclean (by rw [hu]; simp [hslash])
      · rcases u with _ | ⟨e, u⟩
        · rw [List.append_nil] at hu
          exact hclean (hu ▸ hslash)
        · obtain ⟨rfl, -⟩ := List.cons.inj hrest
          obtain ⟨a, rfl⟩ := h w u hu
          exact hclean (by simp)

/-! ## Suffixes -/

theorem suffix_skipBlanks (s : List UInt8) : skipBlanks s <:+ s :=
  List.dropWhile_suffix _

theorem suffix_of_skipBlanks {c : UInt8} {s t : List UInt8} (h : skipBlanks s = c :: t) :
    t <:+ s := by
  have hsuffix := suffix_skipBlanks s
  rw [h] at hsuffix
  exact (List.suffix_cons c t).trans hsuffix

theorem suffix_scanString {s : List UInt8} {r : List ℕ × List UInt8}
    (h : scanString s = some r) : r.2 <:+ s := by
  obtain ⟨r', hr', rfl⟩ := Option.map_eq_some_iff.mp h
  obtain ⟨t, rfl, -⟩ := token_of_scanUnits hr'
  exact (List.suffix_cons 34 r'.2).trans (List.suffix_append t _)

theorem suffix_scanUnsigned {neg : Bool} {s : List UInt8} {r : Json × List UInt8}
    (h : scanUnsigned neg s = some r) : r.2 <:+ s := by
  simp only [scanUnsigned] at h
  split at h
  · cases h
  · split at h
    · obtain rfl := Option.some.inj h
      exact List.drop_suffix _ _
    · obtain rfl := Option.some.inj h
      exact ((List.drop_suffix _ _).trans (List.drop_suffix _ _)).trans
        (List.drop_suffix _ _)

theorem suffix_scanScalar {s : List UInt8} {r : Json × List UInt8}
    (h : (scanNumber s).or (scanConstant s) = some r) : r.2 <:+ s := by
  rcases Option.or_eq_some_iff.mp h with hnumber | ⟨-, hconstant⟩
  · rw [scanNumber] at hnumber
    split at hnumber
    · exact (suffix_scanUnsigned hnumber).trans (List.tail_suffix s)
    · exact suffix_scanUnsigned hnumber
  · obtain ⟨c, -, rfl⟩ := Option.map_eq_some_iff.mp hconstant
    exact List.drop_suffix _ _

/-! ## One step of the decoder -/

/-- What a value is, by the character it starts with. -/
inductive ValueAt (n : ℕ) : List UInt8 → Json → List UInt8 → Prop where
  | string {s rest : List UInt8} {u : List ℕ} (h : scanString s = some (u, rest)) :
      ValueAt n (34 :: s) (str u) rest
  | emptyObject {s rest : List UInt8} (h : skipBlanks s = 125 :: rest) :
      ValueAt n (123 :: s) (obj []) rest
  | object {s rest : List UInt8} {fields : List (List ℕ × Json)}
      (h : scanMembers n (skipBlanks s) = some (fields, rest)) :
      ValueAt n (123 :: s) (obj fields) rest
  | emptyArray {s rest : List UInt8} (h : skipBlanks s = 93 :: rest) :
      ValueAt n (91 :: s) (arr []) rest
  | array {s rest : List UInt8} {items : List Json}
      (h : scanItems n (skipBlanks s) = some (items, rest)) :
      ValueAt n (91 :: s) (arr items) rest
  | scalar {s rest : List UInt8} {v : Json}
      (h : (scanNumber s).or (scanConstant s) = some (v, rest)) : ValueAt n s v rest

theorem valueAt_of_scanValue {n : ℕ} {s : List UInt8} {r : Json × List UInt8}
    (h : scanValue (n + 1) s = some r) : ValueAt n s r.1 r.2 := by
  rw [scanValue.eq_def] at h
  simp only at h
  split at h
  · obtain ⟨r', hr', rfl⟩ := Option.map_eq_some_iff.mp h
    exact .string hr'
  · split at h
    · next t ht =>
        obtain rfl := Option.some.inj h
        exact .emptyObject ht
    · obtain ⟨r', hr', rfl⟩ := Option.map_eq_some_iff.mp h
      exact .object hr'
  · split at h
    · next t ht =>
        obtain rfl := Option.some.inj h
        exact .emptyArray ht
    · obtain ⟨r', hr', rfl⟩ := Option.map_eq_some_iff.mp h
      exact .array hr'
  · exact .scalar h

/-- What the members of an object are, by what follows the first of them. -/
inductive MembersAt (n : ℕ) (s : List UInt8) : List (List ℕ × Json) → List UInt8 → Prop where
  | last {key : List ℕ} {v : Json} {start after rest : List UInt8} (hstart : start <:+ s)
      (hvalue : scanValue n start = some (v, after)) (hend : skipBlanks after = 125 :: rest) :
      MembersAt n s [(key, v)] rest
  | more {key : List ℕ} {v : Json} {start after w rest : List UInt8}
      {fields : List (List ℕ × Json)} (hstart : start <:+ s)
      (hvalue : scanValue n start = some (v, after)) (hcomma : skipBlanks after = 44 :: w)
      (hmore : scanMembers n (skipBlanks w) = some (fields, rest)) :
      MembersAt n s ((key, v) :: fields) rest

theorem membersAt_of_scanMembers {n : ℕ} {s : List UInt8}
    {r : List (List ℕ × Json) × List UInt8} (h : scanMembers (n + 1) s = some r) :
    MembersAt n s r.1 r.2 := by
  rw [scanMembers.eq_def] at h
  simp only at h
  split at h
  · next s =>
      obtain ⟨key, hkey, h⟩ := Option.bind_eq_some_iff.mp h
      split at h
      · next t ht =>
          have hstart : skipBlanks t <:+ 34 :: s :=
            ((suffix_skipBlanks t).trans
              ((suffix_of_skipBlanks ht).trans (suffix_scanString hkey))).trans
              (List.suffix_cons 34 s)
          obtain ⟨v, hv, h⟩ := Option.bind_eq_some_iff.mp h
          split at h
          · next w hw =>
              obtain rfl := Option.some.inj h
              exact .last hstart hv hw
          · next w hw =>
              obtain ⟨r', hr', rfl⟩ := Option.map_eq_some_iff.mp h
              exact .more hstart hv hw hr'
          · cases h
      · cases h
  · cases h

/-- What the items of an array are. -/
inductive ItemsAt (n : ℕ) (s : List UInt8) : List Json → List UInt8 → Prop where
  | last {v : Json} {after rest : List UInt8} (hvalue : scanValue n s = some (v, after))
      (hend : skipBlanks after = 93 :: rest) : ItemsAt n s [v] rest
  | more {v : Json} {after w rest : List UInt8} {items : List Json}
      (hvalue : scanValue n s = some (v, after)) (hcomma : skipBlanks after = 44 :: w)
      (hmore : scanItems n (skipBlanks w) = some (items, rest)) :
      ItemsAt n s (v :: items) rest

theorem itemsAt_of_scanItems {n : ℕ} {s : List UInt8} {r : List Json × List UInt8}
    (h : scanItems (n + 1) s = some r) : ItemsAt n s r.1 r.2 := by
  rw [scanItems] at h
  obtain ⟨v, hv, h⟩ := Option.bind_eq_some_iff.mp h
  split at h
  · next w hw =>
      obtain rfl := Option.some.inj h
      exact .last hv hw
  · next w hw =>
      obtain ⟨r', hr', rfl⟩ := Option.map_eq_some_iff.mp h
      exact .more hv hw hr'
  · cases h

/-- What follows a value, the members of an object and the items of an array. -/
theorem suffix_scan (n : ℕ) :
    (∀ s r, scanValue n s = some r → r.2 <:+ s) ∧
      (∀ s r, scanMembers n s = some r → r.2 <:+ s) ∧
      ∀ s r, scanItems n s = some r → r.2 <:+ s := by
  induction n with
  | zero =>
      refine ⟨?_, ?_, ?_⟩
      all_goals
        intro s r h
        cases h
  | succ n ih =>
      obtain ⟨hvalue, hmembers, hitems⟩ := ih
      refine ⟨?_, ?_, ?_⟩
      · rintro s ⟨v, rest⟩ h
        obtain h | h | h | h | h | h := valueAt_of_scanValue h
        · exact (suffix_scanString h).trans (List.suffix_cons 34 _)
        · exact (suffix_of_skipBlanks h).trans (List.suffix_cons 123 _)
        · exact ((hmembers _ _ h).trans (suffix_skipBlanks _)).trans (List.suffix_cons 123 _)
        · exact (suffix_of_skipBlanks h).trans (List.suffix_cons 91 _)
        · exact ((hitems _ _ h).trans (suffix_skipBlanks _)).trans (List.suffix_cons 91 _)
        · exact suffix_scanScalar h
      · rintro s ⟨fields, rest⟩ h
        obtain ⟨hstart, hv, hend⟩ | ⟨hstart, hv, hcomma, hmore⟩ := membersAt_of_scanMembers h
        · exact (suffix_of_skipBlanks hend).trans ((hvalue _ _ hv).trans hstart)
        · exact ((hmembers _ _ hmore).trans (suffix_skipBlanks _)).trans
            ((suffix_of_skipBlanks hcomma).trans ((hvalue _ _ hv).trans hstart))
      · rintro s ⟨items, rest⟩ h
        obtain ⟨hv, hend⟩ | ⟨hv, hcomma, hmore⟩ := itemsAt_of_scanItems h
        · exact (suffix_of_skipBlanks hend).trans (hvalue _ _ hv)
        · exact ((hitems _ _ hmore).trans (suffix_skipBlanks _)).trans
            ((suffix_of_skipBlanks hcomma).trans (hvalue _ _ hv))

/-! ## Where a string comes from -/

theorem length_joinSurrogates_le (us : List ℕ) : (joinSurrogates us).length ≤ us.length := by
  induction us using joinSurrogates.induct with
  | case1 hi lo us h ih =>
      rw [joinSurrogates, if_pos h]
      simp only [List.length_cons]
      omega
  | case2 hi lo us h ih =>
      rw [joinSurrogates, if_neg h]
      simpa using ih
  | case3 us h =>
      rw [joinSurrogates]
      · exact h

/-- Text between marks that stands for a string, with what is known of it. -/
structure StringText (t : List UInt8) (u : List ℕ) : Prop where
  plain : 92 ∉ t → u = t.map UInt8.toNat ∧ 34 ∉ t
  length_lt : 92 ∈ t → u.length < t.length
  guarded : Guarded t

/-- A mark or a backslash is written with a backslash. -/
theorem StringText.slash_mem {t s : List UInt8} (h : StringText t (s.map UInt8.toNat))
    (hs : 34 ∈ s ∨ 92 ∈ s) : 92 ∈ t := by
  by_contra hnot
  obtain ⟨hmap, hmark⟩ := h.plain hnot
  have hsame : s = t := List.map_injective_iff.mpr (fun a b => UInt8.toNat_inj.mp) hmap
  rw [hsame] at hs
  exact hs.elim hmark hnot

theorem stringText_of_scanString {s : List UInt8} {r : List ℕ × List UInt8}
    (h : scanString s = some r) : ∃ t, s = t ++ 34 :: r.2 ∧ StringText t r.1 := by
  obtain ⟨r', hr', rfl⟩ := Option.map_eq_some_iff.mp h
  obtain ⟨t, hs, htoken⟩ := token_of_scanUnits hr'
  refine ⟨t, hs, ?_, ?_, htoken.guarded⟩
  · intro hslash
    obtain ⟨hunits, hmark⟩ := htoken.plain hslash
    refine ⟨?_, hmark⟩
    simp only [hunits, joinSurrogates_bytes]
  · intro hslash
    exact (length_joinSurrogates_le _).trans_lt (htoken.length_lt hslash)

/-- `u` stands in `s` as the value of a member: a comma or a brace follows it. -/
def MemberString (s : List UInt8) (u : List ℕ) : Prop :=
  ∃ pre t rest, s = pre ++ 34 :: (t ++ 34 :: rest) ∧ StringText t u ∧
    ((skipBlanks rest).head? = some 44 ∨ (skipBlanks rest).head? = some 125)

theorem MemberString.of_suffix {s s' : List UInt8} {u : List ℕ} (h : MemberString s u)
    (hs : s <:+ s') : MemberString s' u := by
  obtain ⟨pre, t, rest, rfl, ht, hrest⟩ := h
  obtain ⟨pre', rfl⟩ := hs
  exact ⟨pre' ++ pre, t, rest, by rw [List.append_assoc], ht, hrest⟩

theorem scanNumber_ne {s rest : List UInt8} {v : Json} (hint : ∀ n, v ≠ int n)
    (hfloat : ∀ t, v ≠ float t) : scanNumber s ≠ some (v, rest) := by
  have hunsigned {neg : Bool} {s : List UInt8} : scanUnsigned neg s ≠ some (v, rest) := by
    intro h
    simp only [scanUnsigned] at h
    split at h
    · cases h
    · split at h
      · exact hint _ (Prod.mk.inj (Option.some.inj h)).1.symm
      · exact hfloat _ (Prod.mk.inj (Option.some.inj h)).1.symm
  rw [scanNumber]
  split
  · exact hunsigned
  · exact hunsigned

theorem scanConstant_ne {s rest : List UInt8} {v : Json} (h : ∀ c ∈ constants, c.2 ≠ v) :
    scanConstant s ≠ some (v, rest) := by
  intro hconstant
  obtain ⟨c, hc, heq⟩ := Option.map_eq_some_iff.mp hconstant
  exact h c (List.mem_of_find?_eq_some hc) (Prod.mk.inj heq).1

theorem scanScalar_ne {s rest : List UInt8} {v : Json} (hint : ∀ n, v ≠ int n)
    (hfloat : ∀ t, v ≠ float t) (h : ∀ c ∈ constants, c.2 ≠ v) :
    (scanNumber s).or (scanConstant s) ≠ some (v, rest) := by
  intro hscalar
  rcases Option.or_eq_some_iff.mp hscalar with hnumber | ⟨-, hconstant⟩
  · exact scanNumber_ne hint hfloat hnumber
  · exact scanConstant_ne h hconstant

/-- Only a text in marks is decoded to a string. -/
theorem stringText_of_scanValue {n : ℕ} {s rest : List UInt8} {u : List ℕ}
    (h : scanValue n s = some (str u, rest)) :
    ∃ t, s = 34 :: (t ++ 34 :: rest) ∧ StringText t u := by
  rcases n with _ | n
  · cases h
  · cases valueAt_of_scanValue h with
    | string hstring =>
        obtain ⟨t, rfl, ht⟩ := stringText_of_scanString hstring
        exact ⟨t, rfl, ht⟩
    | scalar hscalar =>
        exact absurd hscalar (scanScalar_ne (fun _ => Json.noConfusion)
          (fun _ => Json.noConfusion) (by simp [constants]))

/-- The string of a member whose value is followed by a comma or a brace. -/
theorem memberString_of_scanValue {n : ℕ} {s start after : List UInt8} {u : List ℕ}
    (hstart : start <:+ s) (hvalue : scanValue n start = some (str u, after))
    (hend : (skipBlanks after).head? = some 44 ∨ (skipBlanks after).head? = some 125) :
    MemberString s u := by
  obtain ⟨t, rfl, ht⟩ := stringText_of_scanValue hvalue
  exact MemberString.of_suffix ⟨[], t, after, rfl, ht, hend⟩ hstart

theorem memberString_of_scanMembers {n : ℕ} {s rest : List UInt8}
    {fields : List (List ℕ × Json)} {key u : List ℕ}
    (h : scanMembers n s = some (fields, rest)) (hmem : (key, str u) ∈ fields) :
    MemberString s u := by
  induction n generalizing s rest fields with
  | zero => cases h
  | succ n ih =>
      cases membersAt_of_scanMembers h with
      | last hstart hvalue hend =>
          obtain ⟨rfl, rfl⟩ := Prod.mk.inj (List.mem_singleton.mp hmem)
          exact memberString_of_scanValue hstart hvalue (Or.inr (by rw [hend]; rfl))
      | more hstart hvalue hcomma hmore =>
          rcases List.mem_cons.mp hmem with hfirst | hrest
          · obtain ⟨rfl, rfl⟩ := Prod.mk.inj hfirst
            exact memberString_of_scanValue hstart hvalue (Or.inl (by rw [hcomma]; rfl))
          · have hafter := (suffix_of_skipBlanks hcomma).trans
              (((suffix_scan n).1 _ _ hvalue).trans hstart)
            exact (ih hmore hrest).of_suffix ((suffix_skipBlanks _).trans hafter)

/-- Only the members between braces are decoded to an object. -/
theorem members_of_scanValue {n : ℕ} {s rest : List UInt8} {fields : List (List ℕ × Json)}
    (h : scanValue n s = some (obj fields, rest)) :
    fields = [] ∨ ∃ k t, t <:+ s ∧ scanMembers k t = some (fields, rest) := by
  rcases n with _ | n
  · cases h
  · cases valueAt_of_scanValue h with
    | emptyObject hend => exact Or.inl rfl
    | object hmembers =>
        exact Or.inr ⟨n, _, (suffix_skipBlanks _).trans (List.suffix_cons 123 _), hmembers⟩
    | scalar hscalar =>
        exact absurd hscalar (scanScalar_ne (fun _ => Json.noConfusion)
          (fun _ => Json.noConfusion) (by simp [constants]))

/-- A string that is the value of a name stands in the text as one. -/
theorem memberString_of_field {s : List UInt8} {v : Json} {name u : List ℕ}
    (h : loads s = some v) (hfield : v.field name = some (str u)) : MemberString s u := by
  obtain ⟨⟨v', rest⟩, hscan, h⟩ := Option.bind_eq_some_iff.mp h
  split at h
  · obtain rfl := Option.some.inj h
    rcases v' with _ | _ | _ | _ | _ | _ | fields
    case obj =>
      obtain ⟨⟨key, value⟩, hf, hvalue⟩ := Option.map_eq_some_iff.mp hfield
      obtain rfl : value = str u := hvalue
      have hmem := List.mem_reverse.mp (List.mem_of_find?_eq_some hf)
      rcases members_of_scanValue hscan with rfl | ⟨k, t, ht, hmembers⟩
      · cases hmem
      · have hstring := memberString_of_scanMembers hmembers hmem
        exact hstring.of_suffix (ht.trans (suffix_skipBlanks s))
    all_goals cases hfield
  · cases h

end Json

end LifiAuth.Support
