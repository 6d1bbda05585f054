import Mathlib.Data.List.Basic
import Mathlib.Data.List.Range
import Mathlib.Tactic.Common

/-!
# Longest matches

A search for the longest stretch of a text that agrees with the text from a given
position on.  Candidates are tried one after the other; the longest match is kept, and
of equally long ones the first.  A search may skip candidates that cannot win and stop
at a match that cannot be beaten: neither changes what it finds, so that following the
chain of earlier places with the same first character finds what trying all of them
does.
-/

namespace LifiAuth.Support

variable {α : Type*} [DecidableEq α]

/-! ## Agreement -/

/-- How many of the `n` characters from `p` on agree with those from `q` on, up to the
first that does not. -/
def matchLen (s : ℕ → α) (p q : ℕ) : ℕ → ℕ
  | 0 => 0
  | n + 1 => if s p = s q then matchLen s (p + 1) (q + 1) n + 1 else 0

variable {s s' : ℕ → α} {p q n k : ℕ}

theorem matchLen_le (s : ℕ → α) (p q n : ℕ) : matchLen s p q n ≤ n := by
  induction n generalizing p q with
  | zero => exact le_rfl
  | succ n ih =>
      rw [matchLen]
      split
      · exact Nat.succ_le_succ (ih _ _)
      · exact Nat.zero_le _

theorem le_matchLen_iff :
    k ≤ matchLen s p q n ↔ k ≤ n ∧ ∀ i < k, s (p + i) = s (q + i) := by
  induction n generalizing p q k with
  | zero =>
      rw [matchLen, Nat.le_zero]
      constructor
      · rintro rfl
        exact ⟨rfl, fun i hi => absurd hi (Nat.not_lt_zero i)⟩
      · exact fun h => h.1
  | succ n ih =>
      cases k with
      | zero => simp
      | succ k =>
          rw [matchLen]
          by_cases hfirst : s p = s q
          · rw [if_pos hfirst, Nat.add_le_add_iff_right, ih, Nat.add_le_add_iff_right]
            refine and_congr_right fun _ => ⟨?_, ?_⟩
            · intro h i hi
              cases i with
              | zero => exact hfirst
              | succ i =>
                  have hnext := h i (by omega)
                  rwa [Nat.add_right_comm p, Nat.add_right_comm q] at hnext
            · intro h i hi
              have hnext := h (i + 1) (by omega)
              rwa [← Nat.add_assoc, ← Nat.add_assoc, Nat.add_right_comm p,
                Nat.add_right_comm q] at hnext
          · rw [if_neg hfirst]
            constructor
            · intro h
              exact absurd h (Nat.not_succ_le_zero k)
            · rintro ⟨-, h⟩
              exact absurd (h 0 (Nat.succ_pos k)) hfirst

/-- The characters of a match agree. -/
theorem eq_of_lt_matchLen (h : k < matchLen s p q n) : s (p + k) = s (q + k) :=
  (le_matchLen_iff.mp h).2 k (Nat.lt_succ_self k)

/-- A match ends at a disagreement. -/
theorem matchLen_le_of_ne (h : s (p + k) ≠ s (q + k)) : matchLen s p q n ≤ k := by
  by_contra hlt
  exact h (eq_of_lt_matchLen (Nat.lt_of_not_le hlt))

/-- Only the text before `q + n` matters. -/
theorem matchLen_congr (hpq : p ≤ q) (h : ∀ i, p ≤ i → i < q + n → s i = s' i) :
    matchLen s p q n = matchLen s' p q n := by
  induction n generalizing p q with
  | zero => rfl
  | succ n ih =>
      rw [matchLen, matchLen, h p le_rfl (by omega), h q hpq (by omega),
        ih (by omega) fun i hi hlt => h i (by omega) (by omega)]

/-- Stretches of two texts that agree have the same matches. -/
theorem matchLen_shift {b : ℕ} (hpq : p ≤ q)
    (h : ∀ i, p ≤ i → i < q + n → s i = s' (b + i)) :
    matchLen s p q n = matchLen s' (b + p) (b + q) n := by
  induction n generalizing p q with
  | zero => rfl
  | succ n ih =>
      rw [matchLen, matchLen, h p le_rfl (by omega), h q hpq (by omega),
        ih (by omega) fun i hi hlt => h i (by omega) (by omega)]
      rfl

/-! ## The longest of several matches -/

/-- A match of `length` characters at `pos`. -/
structure Match where
  length : ℕ
  pos : ℕ

namespace Match

/-- The match at `p` if it is longer. -/
def improve (s : ℕ → α) (q n : ℕ) (best : Match) (p : ℕ) : Match :=
  if best.length < matchLen s p q n then ⟨matchLen s p q n, p⟩ else best

end Match

/-- The longest match at one of `candidates`, or `best`. -/
def longest (s : ℕ → α) (q n : ℕ) (candidates : List ℕ) (best : Match) : Match :=
  candidates.foldl (Match.improve s q n) best

variable {best : Match} {candidates : List ℕ}

theorem longest_cons (p : ℕ) (candidates : List ℕ) (best : Match) :
    longest s q n (p :: candidates) best =
      longest s q n candidates (best.improve s q n p) := rfl

theorem longest_congr (h : ∀ p ∈ candidates, matchLen s p q n = matchLen s' p q n) :
    longest s q n candidates best = longest s' q n candidates best := by
  induction candidates generalizing best with
  | nil => rfl
  | cons p candidates ih =>
      rw [longest_cons, longest_cons, Match.improve, Match.improve,
        h p List.mem_cons_self,
        ih fun p' hp' => h p' (List.mem_cons_of_mem p hp')]

/-- Nothing beats a match of full length. -/
theorem longest_of_full (hfull : n ≤ best.length) (candidates : List ℕ) :
    longest s q n candidates best = best := by
  induction candidates with
  | nil => rfl
  | cons p candidates ih =>
      have hle := matchLen_le s p q n
      rw [longest_cons, Match.improve, if_neg (by omega), ih]

/-- Where the first characters differ there is no match. -/
theorem longest_filter (candidates : List ℕ) (best : Match) :
    longest s q n (candidates.filter fun p => s p = s q) best =
      longest s q n candidates best := by
  induction candidates generalizing best with
  | nil => rfl
  | cons p candidates ih =>
      by_cases hfirst : s p = s q
      · rw [List.filter_cons_of_pos (by simpa using hfirst), longest_cons,
          longest_cons, ih]
      · have hnone : matchLen s p q n ≤ 0 := matchLen_le_of_ne hfirst
        rw [List.filter_cons_of_neg (by simpa using hfirst), ih, longest_cons,
          Match.improve, if_neg (by omega)]

/-! ## Searching -/

/-- A search that looks at the first character by which a candidate could win before
it compares the others, and stops at a match of full length. -/
def search (s : ℕ → α) (q n : ℕ) : List ℕ → Match → Match
  | [], best => best
  | p :: candidates, best =>
      if s (p + best.length) = s (q + best.length) then
        if best.length < matchLen s p q n then
          if matchLen s p q n = n then ⟨n, p⟩
          else search s q n candidates ⟨matchLen s p q n, p⟩
        else search s q n candidates best
      else search s q n candidates best

theorem search_eq_longest (candidates : List ℕ) (best : Match) :
    search s q n candidates best = longest s q n candidates best := by
  induction candidates generalizing best with
  | nil => rfl
  | cons p candidates ih =>
      rw [search, longest_cons, Match.improve]
      by_cases hwins : best.length < matchLen s p q n
      · rw [if_pos (eq_of_lt_matchLen hwins), if_pos hwins, if_pos hwins]
        split
        · next hfull =>
            have hlen : n ≤ (⟨n, p⟩ : Match).length := le_rfl
            rw [hfull, longest_of_full hlen]
        · exact ih _
      · rw [if_neg hwins, if_neg hwins, ih, ite_self]

/-! ## Windows -/

/-- The positions before `q` down to `start`. -/
def window (start q : ℕ) : List ℕ :=
  (List.range' start (q - start)).reverse

theorem mem_window {start : ℕ} : p ∈ window start q ↔ start ≤ p ∧ p < q := by
  rw [window, List.mem_reverse, List.mem_range'_1]
  omega

theorem window_succ {start : ℕ} (h : start ≤ q) :
    window start (q + 1) = q :: window start q := by
  rw [window, window, Nat.succ_sub h, List.range'_concat, List.reverse_append,
    Nat.one_mul, Nat.add_sub_cancel' h]
  rfl

theorem window_of_le {start : ℕ} (h : q ≤ start) : window start q = [] := by
  rw [window, Nat.sub_eq_zero_of_le h]
  rfl

/-- The longest match in a window: `m` is one unless its length is 0, none is longer,
and of equally long ones it is the nearest. -/
structure IsLongest (s : ℕ → α) (start q n : ℕ) (m : Match) : Prop where
  longest : ∀ p, start ≤ p → p < q → matchLen s p q n ≤ m.length
  found : 0 < m.length → start ≤ m.pos ∧ m.pos < q ∧ matchLen s m.pos q n = m.length
  nearest : 0 < m.length → ∀ p, m.pos < p → p < q → matchLen s p q n < m.length

/-- There is one longest match. -/
theorem IsLongest.eq {start : ℕ} {m m' : Match} (h : IsLongest s start q n m)
    (h' : IsLongest s start q n m') :
    m.length = m'.length ∧ (0 < m.length → m.pos = m'.pos) := by
  have hle {m m' : Match} (h : IsLongest s start q n m) (h' : IsLongest s start q n m') :
      m.length ≤ m'.length := by
    rcases Nat.eq_zero_or_pos m.length with hzero | hpos
    · rw [hzero]
      exact Nat.zero_le _
    · obtain ⟨hge, hlt, hlen⟩ := h.found hpos
      rw [← hlen]
      exact h'.longest m.pos hge hlt
  have hlen := le_antisymm (hle h h') (hle h' h)
  refine ⟨hlen, fun hpos => ?_⟩
  obtain ⟨-, hlt, hm⟩ := h.found hpos
  obtain ⟨-, hlt', hm'⟩ := h'.found (hlen ▸ hpos)
  rcases Nat.lt_trichotomy m.pos m'.pos with hfar | heq | hnear
  · have hless := h.nearest hpos m'.pos hfar hlt'
    omega
  · exact heq
  · have hless := h'.nearest (hlen ▸ hpos) m.pos hnear hlt
    omega

theorem IsLongest.shift {start b : ℕ} {m : Match} (h : IsLongest s start q n m)
    (hagree : ∀ i, start ≤ i → i < q + n → s i = s' (b + i)) :
    IsLongest s' (b + start) (b + q) n ⟨m.length, b + m.pos⟩ := by
  have hlen : ∀ p, start ≤ p → p < q →
      matchLen s' (b + p) (b + q) n = matchLen s p q n := fun p hp hlt =>
    (matchLen_shift hlt.le fun i hi => hagree i (by omega)).symm
  refine ⟨?_, ?_, ?_⟩
  · intro p hp hlt
    obtain ⟨i, rfl⟩ := Nat.exists_eq_add_of_le (show b ≤ p by omega)
    rw [hlen i (by omega) (by omega)]
    exact h.longest i (by omega) (by omega)
  · intro hpos
    obtain ⟨hge, hlt, hfound⟩ := h.found hpos
    refine ⟨Nat.add_le_add_left hge b, Nat.add_lt_add_left hlt b, ?_⟩
    rw [hlen _ hge hlt]
    exact hfound
  · intro hpos p hp hlt
    have hp : b + m.pos < p := hp
    obtain ⟨hge, -, -⟩ := h.found hpos
    obtain ⟨i, rfl⟩ := Nat.exists_eq_add_of_le (show b ≤ p by omega)
    rw [hlen i (by omega) (by omega)]
    exact h.nearest hpos i (by omega) (by omega)

/-- Trying all places of the window finds it. -/
theorem isLongest_longest_window (start q n pos : ℕ) (s : ℕ → α) :
    IsLongest s start q n (longest s q n (window start q) ⟨0, pos⟩) := by
  -- the window is searched downwards, from `q` to `start`
  have hdown : ∀ d p best, p = start + d → p ≤ q → IsLongest s p q n best →
      IsLongest s start q n (longest s q n (window start p) best) := by
    intro d
    induction d with
    | zero =>
        rintro p best rfl - h
        rw [window_of_le le_rfl]
        exact h
    | succ d ih =>
        rintro p best rfl hle ⟨hlongest, hfound, hnearest⟩
        rw [← Nat.add_assoc, window_succ (Nat.le_add_right _ _), longest_cons]
        refine ih _ _ rfl (by omega) ?_
        rw [Match.improve]
        split
        · next hwins =>
            refine ⟨?_, ?_, ?_⟩
            · intro p hp hlt
              rcases Nat.eq_or_lt_of_le hp with rfl | hp
              · exact le_rfl
              · exact (hlongest p hp hlt).trans hwins.le
            · exact fun _ => ⟨le_rfl, show start + d < q by omega, rfl⟩
            · intro _ p hp hlt
              exact Nat.lt_of_le_of_lt (hlongest p hp hlt) hwins
        · next hloses =>
            refine ⟨?_, ?_, hnearest⟩
            · intro p hp hlt
              rcases Nat.eq_or_lt_of_le hp with rfl | hp
              · exact Nat.le_of_not_lt hloses
              · exact hlongest p hp hlt
            · intro hpos
              obtain ⟨hge, hlt, hlen⟩ := hfound hpos
              exact ⟨by omega, hlt, hlen⟩
  by_cases hle : start ≤ q
  · refine hdown (q - start) q ⟨0, pos⟩ (by omega) le_rfl ⟨?_, ?_, ?_⟩
    · intro p hp hlt
      omega
    · exact fun h => absurd h (Nat.lt_irrefl 0)
    · exact fun h => absurd h (Nat.lt_irrefl 0)
  · rw [window_of_le (by omega)]
    refine ⟨?_, ?_, ?_⟩
    · intro p hp hlt
      omega
    · exact fun h => absurd h (Nat.lt_irrefl 0)
    · exact fun h => absurd h (Nat.lt_irrefl 0)

/-! ## Chains -/

/-- `prev i` is the last place before `i` with the character at `i`. -/
def IsPrevious (s : ℕ → α) (prev : ℕ → Option ℕ) (i : ℕ) : Prop :=
  match prev i with
  | some j => j < i ∧ s j = s i ∧ ∀ k, j < k → k < i → s k ≠ s i
  | none => ∀ k < i, s k ≠ s i

/-- The places that the links lead to from `p` on, down to `start`. -/
def chain (prev : ℕ → Option ℕ) (start : ℕ) : ℕ → Option ℕ → List ℕ
  | 0, _ => []
  | _ + 1, none => []
  | fuel + 1, some p => if p < start then [] else p :: chain prev start fuel (prev p)

theorem filter_window_eq_nil {start : ℕ} {c : α} (h : ∀ k, start ≤ k → k < q → s k ≠ c) :
    (window start q).filter (fun p => s p = c) = [] := by
  rw [List.filter_eq_nil_iff]
  intro p hp
  obtain ⟨hge, hlt⟩ := mem_window.mp hp
  simpa using h p hge hlt

/-- Above the last place with a character there is none. -/
theorem filter_window_of_last {start : ℕ} {c : α} (hstart : start ≤ p) (hlt : p < q)
    (hp : s p = c) (hlast : ∀ k, p < k → k < q → s k ≠ c) :
    (window start q).filter (fun i => s i = c) =
      p :: (window start p).filter (fun i => s i = c) := by
  induction q with
  | zero => exact absurd hlt (Nat.not_lt_zero p)
  | succ q ih =>
      rw [window_succ (by omega)]
      rcases Nat.eq_or_lt_of_le (Nat.le_of_lt_succ hlt) with rfl | hlt
      · rw [List.filter_cons_of_pos (by simpa using hp)]
      · rw [List.filter_cons_of_neg (by simpa using hlast q hlt (Nat.lt_succ_self q)),
          ih hlt fun k hk hkq => hlast k hk (Nat.lt_succ_of_lt hkq)]

/-- The chain of previous places lists the places with the same character. -/
theorem chain_eq_filter {prev : ℕ → Option ℕ} {start fuel : ℕ}
    (hprev : ∀ i ≤ q, IsPrevious s prev i) (hfuel : q ≤ fuel) :
    chain prev start fuel (prev q) =
      (window start q).filter (fun i => s i = s q) := by
  induction fuel generalizing q with
  | zero =>
      obtain rfl := Nat.le_zero.mp hfuel
      rw [window_of_le (Nat.zero_le _)]
      rfl
  | succ fuel ih =>
      have hq := hprev q le_rfl
      rw [IsPrevious] at hq
      cases hlink : prev q with
      | none =>
          rw [hlink] at hq
          rw [chain, filter_window_eq_nil fun k _ hk => hq k hk]
      | some p =>
          rw [hlink] at hq
          obtain ⟨hlt, hsame, hlast⟩ := hq
          rw [chain]
          split
          · next hlow =>
              refine (filter_window_eq_nil ?_).symm
              intro k hk hkq
              exact hlast k (by omega) hkq
          · next hhigh =>
              rw [ih (fun i hi => hprev i (by omega)) (by omega),
                filter_window_of_last (by omega) hlt hsame hlast, hsame]

/-- Following the chain finds what trying every place does. -/
theorem longest_chain {prev : ℕ → Option ℕ} {start fuel : ℕ}
    (hprev : ∀ i ≤ q, IsPrevious s prev i) (hfuel : q ≤ fuel) (best : Match) :
    longest s q n (chain prev start fuel (prev q)) best =
      longest s q n (window start q) best := by
  rw [chain_eq_filter hprev hfuel, longest_filter]

end LifiAuth.Support
