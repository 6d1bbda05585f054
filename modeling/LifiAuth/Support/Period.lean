import Mathlib.Algebra.Order.Group.Nat
import Mathlib.Data.List.Basic
import Mathlib.Tactic.Common

/-!
# Words that continue a pattern

A word that is the beginning of a pattern followed by the word itself repeats the
pattern from start to end.
-/

namespace LifiAuth.Support

variable {α : Type*}

/-- `k` copies of a pattern, one after the other. -/
def copies (e : List α) (k : ℕ) : List α :=
  (List.replicate k e).flatten

theorem copies_succ (e : List α) (k : ℕ) : copies e (k + 1) = e ++ copies e k := rfl

theorem length_copies (e : List α) (k : ℕ) : (copies e k).length = k * e.length := by
  simp [copies]

/-- Only the first symbols of a word count for the first symbols of its
continuations. -/
theorem take_append_take (e x : List α) (n : ℕ) :
    (e ++ x.take n).take n = (e ++ x).take n := by
  rw [List.take_append, List.take_append, List.take_take,
    Nat.min_eq_left (Nat.sub_le n e.length)]

/-- A word that begins its own continuation begins with any number of copies. -/
theorem eq_take_copies_append {e x : List α} (h : (e ++ x).take x.length = x)
    (k : ℕ) : x = (copies e k ++ x).take x.length := by
  induction k with
  | zero => simp [copies]
  | succ k ih =>
      calc x = (e ++ x).take x.length := h.symm
        _ = (e ++ (copies e k ++ x).take x.length).take x.length := by rw [← ih]
        _ = (e ++ (copies e k ++ x)).take x.length := take_append_take ..
        _ = (copies e (k + 1) ++ x).take x.length := by
            rw [copies_succ, List.append_assoc]

/-- Enough copies make a longer word superfluous. -/
theorem take_copies_append {e : List α} (he : e ≠ []) {n k : ℕ} (hk : n ≤ k)
    (x : List α) : (copies e k ++ x).take n = (copies e k).take n := by
  have hlen : n ≤ (copies e k).length := by
    have hpos := List.length_pos_of_ne_nil he
    rw [length_copies]
    exact hk.trans (Nat.le_mul_of_pos_right k hpos)
  exact List.take_append_of_le_length hlen

/-- A word begins its own continuation by `e` exactly if it repeats `e`. -/
theorem take_append_self_iff {e : List α} (he : e ≠ []) (x : List α) :
    (e ++ x).take x.length = x ↔ x = (copies e x.length).take x.length := by
  constructor
  · intro h
    have hcopies := eq_take_copies_append h x.length
    rwa [take_copies_append he le_rfl] at hcopies
  · intro h
    calc (e ++ x).take x.length
        = (e ++ (copies e x.length).take x.length).take x.length := by rw [← h]
      _ = (copies e (x.length + 1)).take x.length := take_append_take ..
      _ = (copies e x.length ++ e).take x.length := by
          simp [copies, List.replicate_succ']
      _ = (copies e x.length).take x.length := take_copies_append he le_rfl e
      _ = x := h.symm

end LifiAuth.Support
