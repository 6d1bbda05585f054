import LifiAuth.Support.Bytes
import LifiAuth.Support.Ring

/-!
# The replay window

`receiver/src/replay_window.c`: 64 rows of 12 bytes of which the first `cap` rows
and in each row the first `nonce_size` bytes are used.  Seen through those the
window is a ring buffer, and the library's account of ring buffers says which
nonces it holds.
-/

namespace LifiAuth

open Support

/-- `replay_window_t`. -/
structure ReplayWindow (nonceSize cap : ℕ) where
  buf : List.Vector (Bytes 12) 64
  idx : ℕ
  nonceSize_le : nonceSize ≤ 12
  cap_le : cap ≤ 64
  idx_lt : idx < cap

namespace ReplayWindow

variable {nonceSize cap : ℕ}

/-- `memcpy(row, n, nonce_size)`. -/
def setRow (row : Bytes 12) (n : Bytes nonceSize) (h : nonceSize ≤ 12) :
    Bytes 12 :=
  ⟨n.toList ++ row.toList.drop nonceSize, by simp [h]⟩

/-- `replay_window_init` on whatever the memory held before. -/
def init (memory : List.Vector (Bytes 12) 64) (hsize : nonceSize ≤ 12)
    (hpos : 0 < cap) (hcap : cap ≤ 64) : ReplayWindow nonceSize cap where
  buf := ⟨(memory.toList.take cap).map
      (fun row => setRow row (Bytes.zero nonceSize) hsize) ++
      memory.toList.drop cap, by simp [hcap]⟩
  idx := 0
  nonceSize_le := hsize
  cap_le := hcap
  idx_lt := hpos

/-- `replay_window_seen`. -/
def seen (w : ReplayWindow nonceSize cap) (n : Bytes nonceSize) : Bool :=
  (w.buf.toList.take cap).any (fun row => row.toList.take nonceSize == n.toList)

/-- `replay_window_add`. -/
def add (w : ReplayWindow nonceSize cap) (n : Bytes nonceSize) :
    ReplayWindow nonceSize cap where
  buf := ⟨w.buf.toList.set w.idx
      (setRow (w.buf.toList.getD w.idx (Bytes.zero 12)) n w.nonceSize_le),
    by simp⟩
  idx := (w.idx + 1) % cap
  nonceSize_le := w.nonceSize_le
  cap_le := w.cap_le
  idx_lt := Nat.mod_lt _ (Nat.zero_lt_of_lt w.idx_lt)

/-! ## The window as a ring buffer -/

/-- The part of a row that is compared. -/
def rowNonce (h : nonceSize ≤ 12) (row : Bytes 12) : Bytes nonceSize :=
  row.slice 0 nonceSize (by omega)

@[simp] theorem rowNonce_setRow (h : nonceSize ≤ 12) (row : Bytes 12)
    (n : Bytes nonceSize) : rowNonce h (setRow row n h) = n := by
  apply Bytes.ext_toList
  have hn : n.toList.length = nonceSize := n.toList_length
  rw [rowNonce, Bytes.toList_slice, List.drop_zero, setRow, Bytes.toList_mk,
    List.take_left' hn]

/-- The used part of the window. -/
def ring (w : ReplayWindow nonceSize cap) : RingBuffer (Bytes nonceSize) where
  buf := (w.buf.toList.take cap).map (rowNonce w.nonceSize_le)
  idx := w.idx
  idx_lt := by
    have hcap := w.cap_le
    have hidx := w.idx_lt
    simpa using ⟨hidx, by omega⟩

@[simp] theorem length_ring_buf (w : ReplayWindow nonceSize cap) :
    w.ring.buf.length = cap := by
  have hcap := w.cap_le
  simp [ring, hcap]

/-- A new window holds zeros only. -/
theorem buf_ring_init (memory : List.Vector (Bytes 12) 64) (hsize : nonceSize ≤ 12)
    (hpos : 0 < cap) (hcap : cap ≤ 64) :
    (init memory hsize hpos hcap).ring.buf = List.replicate cap (Bytes.zero nonceSize) := by
  have hrow : rowNonce hsize ∘ (fun row => setRow row (Bytes.zero nonceSize) hsize) =
      Function.const _ (Bytes.zero nonceSize) := by
    funext row
    exact rowNonce_setRow hsize row (Bytes.zero nonceSize)
  have hlen : (memory.toList.take cap).length = cap := by
    rw [List.length_take, memory.toList_length]
    omega
  simp only [ring, init, List.Vector.toList_mk]
  rw [List.take_left' (by rw [List.length_map, hlen]), List.map_map, hrow, List.map_const, hlen]

theorem ring_add (w : ReplayWindow nonceSize cap) (n : Bytes nonceSize) :
    (w.add n).ring = w.ring.add n := by
  have hlen := w.length_ring_buf
  simp only [ring] at hlen
  simp only [ring, add, RingBuffer.add, RingBuffer.mk.injEq]
  constructor
  · simp [List.take_set, List.map_set]
  · simp only [hlen]

theorem seen_iff (w : ReplayWindow nonceSize cap) (n : Bytes nonceSize) :
    w.seen n = true ↔ n ∈ w.ring.buf := by
  simp only [seen, List.any_eq_true, ring, List.mem_map]
  constructor
  · rintro ⟨row, hrow, heq⟩
    refine ⟨row, hrow, Bytes.ext_toList ?_⟩
    simpa [rowNonce] using heq
  · rintro ⟨row, hrow, rfl⟩
    exact ⟨row, hrow, by simp [rowNonce]⟩

/-- What is seen was added last or was seen before. -/
theorem eq_or_seen_of_seen_add {w : ReplayWindow nonceSize cap} {n n' : Bytes nonceSize}
    (h : (w.add n').seen n = true) : n = n' ∨ w.seen n = true := by
  rw [seen_iff, ring_add] at h
  rw [seen_iff]
  exact (List.mem_or_eq_of_mem_set h).symm

/-- Adding nonces in order. -/
def adds (w : ReplayWindow nonceSize cap) (ns : List (Bytes nonceSize)) :
    ReplayWindow nonceSize cap :=
  ns.foldl add w

theorem ring_adds (w : ReplayWindow nonceSize cap)
    (ns : List (Bytes nonceSize)) : (w.adds ns).ring = w.ring.adds ns := by
  induction ns generalizing w with
  | nil => rfl
  | cons n ns ih =>
      have hstep : w.adds (n :: ns) = (w.add n).adds ns := rfl
      rw [hstep, ih, ring_add, RingBuffer.adds_cons]

/-- A nonce is still seen while fewer than `cap` nonces have been added after
it. -/
theorem seen_adds_of_recent (w : ReplayWindow nonceSize cap)
    (n : Bytes nonceSize) (ns : List (Bytes nonceSize))
    (h : ns.length < cap) : ((w.add n).adds ns).seen n = true := by
  rw [seen_iff, ring_adds, ring_add]
  exact RingBuffer.mem_adds_of_recent _ _ _ (by simpa using h)

end ReplayWindow

end LifiAuth
