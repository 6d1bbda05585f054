import LifiAuth.Support.LongestMatch
import Mathlib.Data.List.GetD

/-!
# Lempel–Ziv parsing

A text is cut into characters and copies of earlier stretches: at each position the
longest match in the window before it, if it is long enough to pay, or else a single
character.  The window of the beginning is filled up with a fixed character.  Expanding
the tokens gives the text back, and a token depends on no more of the text than its
lookahead, so that parsing can begin before the text is complete.
-/

namespace LifiAuth.Support

variable {α : Type*}

/-! ## Tokens -/

/-- A character, or `length` characters from `dist` places back. -/
inductive Token (α : Type*) where
  | literal (a : α)
  | copy (dist length : ℕ)

namespace Token

/-- How many characters a token stands for. -/
def size : Token α → ℕ
  | literal _ => 1
  | copy _ length => length

/-- `length` characters from `dist` places back; before the text there is `zero`. -/
def copyBack (zero : α) (dist : ℕ) : ℕ → List α → List α
  | 0, out => out
  | length + 1, out =>
      copyBack zero dist length
        (out ++ [if dist ≤ out.length then out.getD (out.length - dist) zero else zero])

/-- What a token adds to a text. -/
def expand (zero : α) (out : List α) : Token α → List α
  | literal a => out ++ [a]
  | copy dist length => copyBack zero dist length out

end Token

/-! ## Texts behind a window -/

/-- The characters of a text, behind `window` places with `zero`. -/
def padded (window : ℕ) (zero : α) (xs : List α) (i : ℕ) : α :=
  if i < window then zero else xs.getD (i - window) zero

variable {window : ℕ} {zero : α} {xs more : List α}

theorem padded_append {i : ℕ} (h : i < window + xs.length) :
    padded window zero (xs ++ more) i = padded window zero xs i := by
  rw [padded, padded]
  split
  · rfl
  · rw [List.getD_append _ _ _ _ (by omega)]

theorem padded_add (p : ℕ) : padded window zero xs (window + p) = xs.getD p zero := by
  rw [padded, if_neg (by omega), Nat.add_sub_cancel_left]

/-- Copying from a stretch that agrees with what comes next goes on with the text. -/
theorem copyBack_take {dist p : ℕ} (hdist : 0 < dist) (hwindow : dist ≤ window) :
    ∀ length, p + length ≤ xs.length →
      (∀ i < length, padded window zero xs (window + p - dist + i) =
        padded window zero xs (window + p + i)) →
      Token.copyBack zero dist length (xs.take p) = xs.take (p + length) := by
  intro length
  induction length generalizing p with
  | zero => exact fun _ _ => rfl
  | succ length ih =>
      intro hle hagree
      have hlen : (xs.take p).length = p := List.length_take_of_le (by omega)
      have hnext : (if dist ≤ p then (xs.take p).getD (p - dist) zero else zero) =
          xs.getD p zero := by
        have hfirst := hagree 0 (Nat.succ_pos _)
        rw [Nat.add_zero, Nat.add_zero, padded_add] at hfirst
        rw [← hfirst, padded]
        by_cases hback : dist ≤ p
        · rw [if_pos hback, if_neg (by omega), List.getD_eq_getElem?_getD,
            List.getD_eq_getElem?_getD, List.getElem?_take_of_lt (by omega)]
          congr 2
          omega
        · rw [if_neg hback, if_pos (by omega)]
      have htake : xs.take p ++ [xs.getD p zero] = xs.take (p + 1) := by
        rw [List.getD_eq_getElem _ _ (by omega), List.take_succ_eq_append_getElem]
      rw [Token.copyBack, hlen, hnext, htake, ih (by omega), Nat.add_assoc,
        Nat.add_comm 1]
      intro i hi
      have hnext := hagree (i + 1) (by omega)
      have hfrom : window + p - dist + (i + 1) = window + (p + 1) - dist + i := by
        omega
      have hto : window + p + (i + 1) = window + (p + 1) + i := by
        omega
      rwa [hfrom, hto] at hnext

/-! ## Parsing -/

/-- How far back copies may reach, how much of the text is looked at for one, and from
how many characters on it pays. -/
structure LempelZiv (α : Type*) where
  window : ℕ
  lookahead : ℕ
  shortest : ℕ
  zero : α
  lookahead_pos : 0 < lookahead
  shortest_pos : 0 < shortest

namespace LempelZiv

variable [DecidableEq α] (c : LempelZiv α)

/-- The token for a match that may be too short. -/
def token (m : Match) (q : ℕ) (a : α) : Token α :=
  if c.shortest ≤ m.length then .copy (q - m.pos) m.length else .literal a

/-- The longest match for the text from `p` on, among the places in the window. -/
def longestAt (xs : List α) (p : ℕ) : Match :=
  longest (padded c.window c.zero xs) (c.window + p) (min c.lookahead (xs.length - p))
    (Support.window p (c.window + p)) ⟨0, 0⟩

/-- The token at `p`. -/
def nextToken (xs : List α) (p : ℕ) : Token α :=
  c.token (c.longestAt xs p) (c.window + p) (xs.getD p c.zero)

def parseFrom (xs : List α) : ℕ → ℕ → List (Token α)
  | 0, _ => []
  | fuel + 1, p =>
      if p < xs.length then
        c.nextToken xs p :: parseFrom xs fuel (p + (c.nextToken xs p).size)
      else []

/-- The tokens from `p` on. -/
def parse (xs : List α) (p : ℕ) : List (Token α) :=
  c.parseFrom xs (xs.length - p) p

theorem isLongest_longestAt (xs : List α) (p : ℕ) :
    IsLongest (padded c.window c.zero xs) p (c.window + p)
      (min c.lookahead (xs.length - p)) (c.longestAt xs p) :=
  isLongest_longest_window _ _ _ _ _

/-- What a token says of the text, if it is a copy. -/
theorem nextToken_cases (xs : List α) (p : ℕ) :
    c.nextToken xs p = .literal (xs.getD p c.zero) ∨
      ∃ dist length, c.nextToken xs p = .copy dist length ∧
        0 < dist ∧ dist ≤ c.window ∧ c.shortest ≤ length ∧
        length ≤ min c.lookahead (xs.length - p) ∧
        ∀ i < length, padded c.window c.zero xs (c.window + p - dist + i) =
          padded c.window c.zero xs (c.window + p + i) := by
  have hshortest := c.shortest_pos
  have hbest := c.isLongest_longestAt xs p
  rw [nextToken, token]
  split
  · next hlong =>
      right
      obtain ⟨hge, hlt, hlen⟩ := hbest.found (by omega)
      have hback : c.window + p - (c.window + p - (c.longestAt xs p).pos) =
          (c.longestAt xs p).pos := by
        omega
      refine ⟨_, _, rfl, by omega, by omega, hlong, ?_, ?_⟩
      · rw [← hlen]
        exact matchLen_le _ _ _ _
      · intro i hi
        rw [hback]
        exact eq_of_lt_matchLen (hlen ▸ hi)
  · exact Or.inl rfl

theorem size_nextToken_pos (xs : List α) (p : ℕ) : 0 < (c.nextToken xs p).size := by
  rcases c.nextToken_cases xs p with h | ⟨dist, length, h, -, -, hlong, -⟩
  · rw [h]
    exact Nat.one_pos
  · rw [h]
    exact c.shortest_pos.trans_le hlong

variable {p : ℕ}

theorem size_nextToken_le (hp : p < xs.length) :
    p + (c.nextToken xs p).size ≤ xs.length := by
  rcases c.nextToken_cases xs p with h | ⟨dist, length, h, -, -, -, hle, -⟩
  · rw [h]
    exact hp
  · rw [h]
    simp only [Token.size]
    omega

/-- A token goes on with the text. -/
theorem expand_nextToken (hp : p < xs.length) :
    (c.nextToken xs p).expand c.zero (xs.take p) =
      xs.take (p + (c.nextToken xs p).size) := by
  rcases c.nextToken_cases xs p with h | ⟨dist, length, h, hpos, hdist, -, hle, hagree⟩
  · rw [h, Token.expand, Token.size, List.getD_eq_getElem _ _ hp,
      List.take_succ_eq_append_getElem]
  · rw [h, Token.expand, Token.size]
    exact copyBack_take hpos hdist length (by omega) hagree

theorem parseFrom_of_le {fuel fuel' : ℕ} (h : xs.length - p ≤ fuel)
    (h' : xs.length - p ≤ fuel') : c.parseFrom xs fuel p = c.parseFrom xs fuel' p := by
  induction fuel generalizing p fuel' with
  | zero =>
      cases fuel' with
      | zero => rfl
      | succ fuel' => rw [parseFrom, parseFrom, if_neg (by omega)]
  | succ fuel ih =>
      cases fuel' with
      | zero => rw [parseFrom, parseFrom, if_neg (by omega)]
      | succ fuel' =>
          have hpos := c.size_nextToken_pos xs p
          have hrest := @ih (p + (c.nextToken xs p).size) fuel' (by omega) (by omega)
          rw [parseFrom, parseFrom, hrest]

theorem parse_of_lt (hp : p < xs.length) :
    c.parse xs p = c.nextToken xs p :: c.parse xs (p + (c.nextToken xs p).size) := by
  have hpos := c.size_nextToken_pos xs p
  obtain ⟨fuel, hfuel⟩ : ∃ fuel, xs.length - p = fuel + 1 :=
    Nat.exists_eq_succ_of_ne_zero (by omega)
  rw [parse, hfuel, parseFrom, if_pos hp, parse]
  congr 1
  exact c.parseFrom_of_le (by omega) le_rfl

theorem parse_of_ge (hp : xs.length ≤ p) : c.parse xs p = [] := by
  rw [parse, Nat.sub_eq_zero_of_le hp]
  rfl

/-- To show something of the parse from everywhere, go token by token from the end. -/
theorem parse_induction {P : ℕ → List (Token α) → Prop} (xs : List α)
    (hend : P xs.length [])
    (hnext : ∀ p < xs.length, P (p + (c.nextToken xs p).size)
        (c.parse xs (p + (c.nextToken xs p).size)) →
      P p (c.nextToken xs p :: c.parse xs (p + (c.nextToken xs p).size)))
    (hp : p ≤ xs.length) : P p (c.parse xs p) := by
  generalize hd : xs.length - p = d
  induction d using Nat.strong_induction_on generalizing p with
  | _ d ih =>
    rcases Nat.eq_or_lt_of_le hp with rfl | hlt
    · rw [c.parse_of_ge le_rfl]
      exact hend
    · have hpos := c.size_nextToken_pos xs p
      have hle := c.size_nextToken_le hlt
      rw [c.parse_of_lt hlt]
      exact hnext p hlt (ih _ (by omega) hle rfl)

/-- Expanding the tokens gives the text back. -/
theorem foldl_expand_parse (xs : List α) :
    (c.parse xs 0).foldl (Token.expand c.zero) [] = xs := by
  have hfrom : (c.parse xs 0).foldl (Token.expand c.zero) (xs.take 0) = xs := by
    refine c.parse_induction
      (P := fun p ts => ts.foldl (Token.expand c.zero) (xs.take p) = xs) xs ?_ ?_
      (Nat.zero_le _)
    · exact List.take_length
    · intro p hp ih
      rw [List.foldl_cons, c.expand_nextToken hp]
      exact ih
  exact hfrom

/-- A token whose lookahead is there does not depend on the rest of the text. -/
theorem nextToken_append (hp : p + c.lookahead ≤ xs.length) (more : List α) :
    c.nextToken (xs ++ more) p = c.nextToken xs p := by
  have hlook := c.lookahead_pos
  have hlen : min c.lookahead ((xs ++ more).length - p) =
      min c.lookahead (xs.length - p) := by
    rw [List.length_append]
    omega
  have hbest : c.longestAt (xs ++ more) p = c.longestAt xs p := by
    rw [longestAt, longestAt, hlen]
    refine longest_congr ?_
    intro i hi
    refine matchLen_congr (mem_window.mp hi).2.le ?_
    intro j _ hj
    exact padded_append (by omega)
  rw [nextToken, nextToken, hbest, List.getD_append _ _ _ _ (by omega)]

/-! ## Parsing a text that grows -/

/-- The parse of `xs`, however it goes on unless it is complete, begins with `tokens`
and continues at `p`. -/
def Leads (done : Bool) (xs : List α) (tokens : List (Token α)) (p : ℕ) : Prop :=
  ∀ more, (done = true → more = []) →
    c.parse (xs ++ more) 0 = tokens ++ c.parse (xs ++ more) p

variable {c} {done : Bool} {tokens : List (Token α)}

theorem Leads.start : c.Leads done xs [] 0 :=
  fun _ _ => rfl

theorem Leads.append (h : c.Leads false xs tokens p) (ys : List α) :
    c.Leads false (xs ++ ys) tokens p := by
  intro more _
  rw [List.append_assoc]
  exact h _ Bool.noConfusion

theorem Leads.finish (h : c.Leads done xs tokens p) : c.Leads true xs tokens p := by
  intro more hmore
  exact h more fun _ => hmore rfl

/-- One token further, if its lookahead is there or nothing more comes. -/
theorem Leads.next (h : c.Leads done xs tokens p) (hp : p < xs.length)
    (hready : done = true ∨ p + c.lookahead ≤ xs.length) :
    c.Leads done xs (tokens ++ [c.nextToken xs p]) (p + (c.nextToken xs p).size) := by
  intro more hmore
  have hlt : p < (xs ++ more).length := by
    rw [List.length_append]
    omega
  have hsame : c.nextToken (xs ++ more) p = c.nextToken xs p := by
    rcases hready with hdone | hthere
    · rw [hmore hdone, List.append_nil]
    · exact c.nextToken_append hthere more
  rw [h more hmore, c.parse_of_lt hlt, hsame, List.append_assoc]
  rfl

/-- At the end all tokens are there. -/
theorem Leads.parse_eq (h : c.Leads true xs tokens p) (hp : xs.length ≤ p) :
    c.parse xs 0 = tokens := by
  have hall := h [] fun _ => rfl
  rwa [List.append_nil, c.parse_of_ge hp, List.append_nil] at hall

end LempelZiv

end LifiAuth.Support
