import Mathlib.Data.List.Rotate
import Mathlib.Tactic.Common

/-!
# A ring buffer is a sliding window

A fixed array with a write index that wraps around holds the most recent entries
written to it.  Reading the array from the write index on, and around its end,
lists the entries from the oldest to the newest; in that order one write drops the
oldest entry and appends the new one.
-/

namespace LifiAuth.Support

/-- An array with the index of its next write. -/
structure RingBuffer (α : Type*) where
  buf : List α
  idx : ℕ
  idx_lt : idx < buf.length

namespace RingBuffer

variable {α : Type*}

/-- Write one entry and advance the index around the end. -/
def add (r : RingBuffer α) (x : α) : RingBuffer α where
  buf := r.buf.set r.idx x
  idx := (r.idx + 1) % r.buf.length
  idx_lt := by
    rw [List.length_set]
    exact Nat.mod_lt _ (Nat.zero_lt_of_lt r.idx_lt)

/-- Write several entries in order. -/
def adds (r : RingBuffer α) (xs : List α) : RingBuffer α :=
  xs.foldl add r

/-- The entries from the oldest to the newest. -/
def contents (r : RingBuffer α) : List α :=
  r.buf.rotate r.idx

theorem contents_eq (r : RingBuffer α) :
    r.contents = r.buf.drop r.idx ++ r.buf.take r.idx :=
  List.rotate_eq_drop_append_take (Nat.le_of_lt r.idx_lt)

@[simp] theorem length_contents (r : RingBuffer α) :
    r.contents.length = r.buf.length := by
  simp [contents]

@[simp] theorem length_buf_add (r : RingBuffer α) (x : α) :
    (r.add x).buf.length = r.buf.length := by
  simp [add]

theorem mem_contents {r : RingBuffer α} {x : α} :
    x ∈ r.contents ↔ x ∈ r.buf :=
  List.mem_rotate

/-- One write drops the oldest entry and appends the new one. -/
theorem contents_add (r : RingBuffer α) (x : α) :
    (r.add x).contents = r.contents.tail ++ [x] := by
  have hlt := r.idx_lt
  have hnonempty : r.buf.drop r.idx ≠ [] := by
    simpa using hlt
  have hset : r.buf.set r.idx x =
      r.buf.take r.idx ++ x :: r.buf.drop (r.idx + 1) :=
    List.set_eq_take_append_cons_drop.trans (if_pos hlt)
  have hold : r.contents.tail =
      r.buf.drop (r.idx + 1) ++ r.buf.take r.idx := by
    rw [contents_eq, List.tail_append_of_ne_nil hnonempty, List.tail_drop]
  have htake : (r.buf.take r.idx).length = r.idx := by
    simp [Nat.le_of_lt hlt]
  rw [hold]
  rcases Nat.lt_or_ge (r.idx + 1) r.buf.length with hnext | hwrap
  · have hidx : (r.add x).idx = r.idx + 1 := Nat.mod_eq_of_lt hnext
    rw [contents_eq, hidx]
    simp only [add, hset]
    have hdrop : (r.buf.take r.idx).drop (r.idx + 1) = [] :=
      List.drop_eq_nil_of_le (by omega)
    have hfull : (r.buf.take r.idx).take (r.idx + 1) = r.buf.take r.idx :=
      List.take_of_length_le (by omega)
    rw [List.drop_append, List.take_append, hdrop, hfull]
    simp [htake]
  · have hlast : r.idx + 1 = r.buf.length := by omega
    have hidx : (r.add x).idx = 0 := by
      simp [add, hlast]
    rw [contents_eq, hidx]
    simp [add, hset, hlast]

@[simp] theorem adds_nil (r : RingBuffer α) : r.adds [] = r := rfl

@[simp] theorem adds_cons (r : RingBuffer α) (x : α) (xs : List α) :
    r.adds (x :: xs) = (r.add x).adds xs := rfl

/-- After any number of writes the buffer holds the last `buf.length` of the
initial entries followed by the written ones. -/
theorem contents_adds (r : RingBuffer α) (xs : List α) :
    (r.adds xs).contents = (r.contents ++ xs).drop xs.length := by
  induction xs generalizing r with
  | nil => simp
  | cons x xs ih =>
      have hnonempty : r.contents ≠ [] := by
        have hpos := Nat.zero_lt_of_lt r.idx_lt
        intro hnil
        rw [← length_contents, hnil] at hpos
        exact Nat.lt_irrefl 0 hpos
      obtain ⟨y, ys, hys⟩ := List.exists_cons_of_ne_nil hnonempty
      rw [adds_cons, ih, contents_add, hys]
      simp

/-- An entry is still in the buffer as long as fewer than `buf.length` entries
have been written after it. -/
theorem mem_adds_of_recent (r : RingBuffer α) (x : α) (xs : List α)
    (h : xs.length < r.buf.length) : x ∈ ((r.add x).adds xs).buf := by
  rw [← mem_contents, contents_adds, contents_add, List.append_assoc,
    List.drop_append_of_le_length]
  · simp
  · rw [List.length_tail, length_contents]
    omega

/-- A buffer that starts with one value everywhere is a sliding window for all others:
it holds exactly those among the last `buf.length` entries written. -/
theorem mem_adds_of_replicate {r : RingBuffer α} {z : α} {n : ℕ}
    (hbuf : r.buf = List.replicate n z) (xs : List α) {x : α} (hx : x ≠ z) :
    x ∈ (r.adds xs).buf ↔ x ∈ xs.drop (xs.length - n) := by
  have hcontents : r.contents = List.replicate n z := by
    rw [contents, hbuf, List.rotate_replicate]
  have hinitial : x ∉ (List.replicate n z).drop xs.length := by
    intro hmem
    exact hx (List.eq_of_mem_replicate (List.mem_of_mem_drop hmem))
  rw [← mem_contents, contents_adds, hcontents, List.drop_append, List.mem_append,
    List.length_replicate]
  exact or_iff_right hinitial

end RingBuffer

end LifiAuth.Support
