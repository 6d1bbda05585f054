import Mathlib.Data.Nat.ModEq
import Mathlib.Data.Vector.Basic
import Mathlib.Tactic.Common

/-!
# Queues in an array

A fixed array with the index of its oldest entry, the index of its next write and the
number of entries in use.  From the oldest entry on and around the end of the array, the
entries in use are the contents of the queue.
-/

namespace LifiAuth.Support

structure RingQueue (α : Type*) (n : ℕ) where
  slots : List.Vector α n
  head : Fin n
  tail : Fin n
  count : ℕ
  count_le : count ≤ n
  tail_eq : (tail : ℕ) = (head + count) % n

namespace RingQueue

variable {α : Type*} {n : ℕ}

/-- The index behind `i`, around the end. -/
def next (i : Fin n) : Fin n :=
  ⟨(i + 1) % n, Nat.mod_lt _ i.pos⟩

theorem val_next (i : Fin n) : (next i : ℕ) = (i + 1) % n := rfl

/-- What stands `i` places behind the oldest entry. -/
def entry (q : RingQueue α n) (i : ℕ) : α :=
  q.slots.get ⟨(q.head + i) % n, Nat.mod_lt _ q.head.pos⟩

/-- The entries in use from the oldest to the newest. -/
def contents (q : RingQueue α n) : List α :=
  (List.range q.count).map q.entry

/-- Write one entry behind the others. -/
def push (q : RingQueue α n) (x : α) (h : q.count < n) : RingQueue α n where
  slots := q.slots.set q.tail x
  head := q.head
  tail := next q.tail
  count := q.count + 1
  count_le := h
  tail_eq := by
    rw [val_next, q.tail_eq, Nat.mod_add_mod, Nat.add_assoc]

@[simp] theorem length_contents (q : RingQueue α n) : q.contents.length = q.count := by
  simp [contents]

end RingQueue

end LifiAuth.Support
