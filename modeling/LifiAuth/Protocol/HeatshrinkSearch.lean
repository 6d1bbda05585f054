import LifiAuth.Protocol.HeatshrinkEncoder

/-!
# The search of the encoder

`do_indexing` links every place of the buffer to the one before it with the same byte.
The search that follows these links finds what the search through all places of the
window finds, and that is the nearest of the longest matches.
-/

namespace LifiAuth.Heatshrink

open Support

/-! ## Comparing -/

theorem compareFrom_eq (buf : ℕ → UInt8) (pos needle left len : ℕ) :
    compareFrom buf pos needle left len =
      len + matchLen buf (pos + len) (needle + len) left := by
  induction left generalizing len with
  | zero => rfl
  | succ left ih =>
      rw [compareFrom, matchLen]
      by_cases hsame : buf (pos + len) = buf (needle + len)
      · rw [if_neg (not_not.mpr hsame), if_pos hsame, ih]
        simp only [Nat.add_assoc, Nat.add_comm 1]
      · rw [if_pos hsame, if_neg hsame, Nat.add_zero]

/-- Where the first bytes agree the loop counts how many do. -/
theorem compareFrom_one {buf : ℕ → UInt8} {pos needle maxlen : ℕ}
    (hfirst : buf pos = buf needle) (hmax : 0 < maxlen) :
    compareFrom buf pos needle (maxlen - 1) 1 = matchLen buf pos needle maxlen := by
  obtain ⟨n, rfl⟩ := Nat.exists_eq_succ_of_ne_zero (Nat.ne_of_gt hmax)
  rw [compareFrom_eq, Nat.succ_sub_one, matchLen, if_pos hfirst, Nat.add_comm]

/-! ## The two loops -/

section

variable {buf : ℕ → UInt8} {start needle maxlen : ℕ}

/-- Following the index is searching the chain. -/
theorem followIndex_eq_search {index : ℕ → Option ℕ} (hmax : 0 < maxlen) {fuel : ℕ}
    {pos : Option ℕ} (hfirst : ∀ p ∈ chain index start fuel pos, buf p = buf needle)
    (best : Match) :
    followIndex buf index start needle maxlen fuel pos best =
      search buf needle maxlen (chain index start fuel pos) best := by
  induction fuel generalizing pos best with
  | zero => rfl
  | succ fuel ih =>
      cases pos with
      | none => rfl
      | some p =>
          rw [chain] at hfirst ⊢
          rw [followIndex]
          by_cases hlow : p < start
          · rw [if_pos hlow, if_pos hlow, search]
          · rw [if_neg hlow] at hfirst ⊢
            rw [if_neg hlow, search]
            obtain ⟨hp, hrest⟩ := List.forall_mem_cons.mp hfirst
            simp only [ih hrest, compareFrom_one hp hmax, ne_eq, ite_not]
            split
            · split
              · split
                · next hfull => rw [hfull]
                · rfl
              · rfl
            · rfl

/-- Scanning backwards is searching the window. -/
theorem scanBackwards_eq_search (hmax : 0 < maxlen) (left : ℕ) (best : Match) :
    scanBackwards buf start needle maxlen left best =
      search buf needle maxlen
        ((window start (start + left)).filter fun p => buf p = buf needle) best := by
  induction left generalizing best with
  | zero =>
      rw [Nat.add_zero, window_of_le le_rfl]
      rfl
  | succ left ih =>
      rw [scanBackwards, ← Nat.add_assoc, window_succ (Nat.le_add_right _ _)]
      by_cases hfirst : buf (start + left) = buf needle
      · rw [List.filter_cons_of_pos (by simpa using hfirst), search]
        simp only [ih, compareFrom_one hfirst hmax, hfirst, and_true]
        split
        · split
          · split
            · next hfull => rw [hfull]
            · rfl
          · rfl
        · rfl
      · rw [List.filter_cons_of_neg (by simpa using hfirst)]
        simp only [ih, hfirst, and_false, if_false]

end

/-! ## Indexing -/

/-- `last` has the last place before `i` of each byte. -/
def LastPlaces (data : ℕ → UInt8) (i : ℕ) (last : UInt8 → Option ℕ) : Prop :=
  ∀ v, match last v with
    | some j => j < i ∧ data j = v ∧ ∀ k, j < k → k < i → data k ≠ v
    | none => ∀ k < i, data k ≠ v

theorem LastPlaces.next {data : ℕ → UInt8} {i : ℕ} {last : UInt8 → Option ℕ}
    (h : LastPlaces data i last) :
    LastPlaces data (i + 1) (Function.update last (data i) (some i)) := by
  intro v
  by_cases hv : v = data i
  · subst hv
    rw [Function.update_self]
    refine ⟨Nat.lt_succ_self i, rfl, ?_⟩
    intro k hik hk
    omega
  · rw [Function.update_of_ne hv]
    have hlast := h v
    cases hplace : last v with
    | some j =>
        rw [hplace] at hlast
        obtain ⟨hlt, hj, hnone⟩ := hlast
        refine ⟨Nat.lt_succ_of_lt hlt, hj, ?_⟩
        intro k hjk hk
        rcases Nat.eq_or_lt_of_le (Nat.le_of_lt_succ hk) with rfl | hk
        · exact fun heq => hv heq.symm
        · exact hnone k hjk hk
    | none =>
        rw [hplace] at hlast
        intro k hk
        rcases Nat.eq_or_lt_of_le (Nat.le_of_lt_succ hk) with rfl | hk
        · exact fun heq => hv heq.symm
        · exact hlast k hk

theorem indexFrom_isPrevious {data : ℕ → UInt8} {left i : ℕ} {last : UInt8 → Option ℕ}
    {index : ℕ → Option ℕ} (hlast : LastPlaces data i last)
    (hindex : ∀ k < i, IsPrevious data index k) :
    ∀ k < i + left, IsPrevious data (indexFrom data left i last index) k := by
  induction left generalizing i last index with
  | zero => exact hindex
  | succ left ih =>
      have hnext : ∀ k < i + 1, IsPrevious data
          (Function.update index i (last (data i))) k := by
        intro k hk
        rcases Nat.eq_or_lt_of_le (Nat.le_of_lt_succ hk) with rfl | hk
        · rw [IsPrevious, Function.update_self]
          exact hlast (data k)
        · have hold := hindex k hk
          rw [IsPrevious] at hold ⊢
          rwa [Function.update_of_ne (Nat.ne_of_lt hk)]
      rw [← Nat.add_assoc, Nat.add_right_comm]
      exact ih hlast.next hnext

/-- The index has the place before with the same byte, for all that is in the buffer. -/
theorem Hse.isPrevious_doIndexing (e : Hse) :
    ∀ k < getInputBufferSize + e.inputSize,
      IsPrevious e.buffer e.doIndexing.searchIndex k := by
  have hall : ∀ k < 0 + (getInputBufferSize + e.inputSize),
      IsPrevious e.buffer e.doIndexing.searchIndex k :=
    indexFrom_isPrevious (fun v k hk => absurd hk (Nat.not_lt_zero k))
      (fun k hk => absurd hk (Nat.not_lt_zero k))
  rwa [Nat.zero_add] at hall

/-! ## What the search finds -/

section

variable {buf : ℕ → UInt8} {index : ℕ → Option ℕ} {start needle maxlen : ℕ}

theorem followIndex_eq_longest (hindex : ∀ k ≤ needle, IsPrevious buf index k)
    (hmax : 0 < maxlen) (best : Match) :
    followIndex buf index start needle maxlen needle (index needle) best =
      longest buf needle maxlen (window start needle) best := by
  have hchain : chain index start needle (index needle) =
      (window start needle).filter (fun i => buf i = buf needle) :=
    chain_eq_filter hindex le_rfl
  rw [followIndex_eq_search hmax, search_eq_longest, longest_chain hindex le_rfl]
  intro p hp
  rw [hchain] at hp
  simpa using (List.mem_filter.mp hp).2

theorem scanBackwards_eq_longest (hstart : start ≤ needle) (hmax : 0 < maxlen)
    (best : Match) :
    scanBackwards buf start needle maxlen (needle - start) best =
      longest buf needle maxlen (window start needle) best := by
  rw [scanBackwards_eq_search hmax, Nat.add_sub_cancel' hstart, search_eq_longest,
    longest_filter]

/-- The match found, if it pays. -/
theorem findLongestMatch_eq (hindex : ∀ k ≤ needle, IsPrevious buf index k)
    (hmax : 0 < maxlen) :
    ∃ m, IsLongest buf start needle maxlen m ∧
      findLongestMatch buf index start needle maxlen = payingMatch needle m :=
  ⟨_, isLongest_longest_window start needle maxlen matchNotFound buf, by
    rw [findLongestMatch, followIndex_eq_longest hindex hmax]⟩

end

/-- With the index of `do_indexing` the search finds what it finds without one: the
nearest of the longest matches in the window, unless it is shorter than two bytes. -/
theorem findLongestMatch_doIndexing (e : Hse) {start needle maxlen : ℕ}
    (hstart : start ≤ needle) (hneedle : needle < getInputBufferSize + e.inputSize)
    (hmax : 0 < maxlen) :
    findLongestMatch e.buffer e.doIndexing.searchIndex start needle maxlen =
        findLongestMatchPlain e.buffer start needle maxlen ∧
      ∃ m, IsLongest e.buffer start needle maxlen m ∧
        findLongestMatch e.buffer e.doIndexing.searchIndex start needle maxlen =
          if 2 ≤ m.length then some (needle - m.pos, m.length) else none := by
  have hindex : ∀ k ≤ needle, IsPrevious e.buffer e.doIndexing.searchIndex k :=
    fun k hk => e.isPrevious_doIndexing k (Nat.lt_of_le_of_lt hk hneedle)
  refine ⟨?_, ?_⟩
  · rw [findLongestMatch, followIndex_eq_longest hindex hmax, findLongestMatchPlain,
      scanBackwards_eq_longest hstart hmax]
  · exact findLongestMatch_eq hindex hmax

/-- The buffer of an encoder that took six bytes. -/
theorem findLongestMatch_doIndexing_repeat :
    let e := (Hse.sink (.reset fun _ => some 7) [97, 98, 99, 97, 98, 99]).2
    findLongestMatch e.buffer e.doIndexing.searchIndex 3 259 3 = some (3, 3) := by
  intro e
  have hsame := (findLongestMatch_doIndexing e (show 3 ≤ 259 by decide)
    (show 259 < 256 + 6 by decide) (show 0 < 3 by decide)).1
  rw [hsame]
  decide +kernel

end LifiAuth.Heatshrink
