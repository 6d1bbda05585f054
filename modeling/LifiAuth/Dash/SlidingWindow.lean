import LifiAuth.Dash.ReplayWindow
import LifiAuth.Support.Access

/-!
# The replay window is an exact sliding window

A nonce other than the zeros of a new window is seen exactly while it is among the last
`cap` nonces added, also before the window is full, and the window's functions stay
within its rows.
-/

namespace LifiAuth

open Support Access

namespace ReplayWindow

variable {nonceSize cap : ℕ}

/-! ## Accesses -/

/-- The rows of `buf` and the nonce a function is called with. -/
inductive WindowArray where
  | buf (row : ℕ)
  | nonce
  deriving DecidableEq

def WindowArray.size (nonceSize : ℕ) : WindowArray → ℕ
  | buf row => if row < 64 then 12 else 0
  | nonce => nonceSize

/-- The writes of `replay_window_init`. -/
def initAccesses (nonceSize cap : ℕ) : List (Access WindowArray) :=
  (List.range cap).flatMap fun i =>
    (List.range nonceSize).map fun j => ⟨.buf i, j, 1⟩

/-- The comparisons of `replay_window_seen` with `rows`, the first of which is row `i`. -/
def compareRows (n : Bytes nonceSize) (i : ℕ) :
    List (Bytes 12) → List (Access WindowArray)
  | [] => []
  | row :: rows =>
      ⟨.buf i, 0, nonceSize⟩ :: ⟨.nonce, 0, nonceSize⟩ ::
        if row.toList.take nonceSize == n.toList then [] else compareRows n (i + 1) rows

def seenAccesses (w : ReplayWindow nonceSize cap) (n : Bytes nonceSize) :
    List (Access WindowArray) :=
  compareRows n 0 (w.buf.toList.take cap)

def addAccesses (w : ReplayWindow nonceSize cap) : List (Access WindowArray) :=
  memcpy (.buf w.idx) 0 .nonce 0 nonceSize

def addsAccesses (w : ReplayWindow nonceSize cap) :
    List (Bytes nonceSize) → List (Access WindowArray)
  | [] => []
  | n :: ns => w.addAccesses ++ addsAccesses (w.add n) ns

theorem fits_buf (hsize : nonceSize ≤ 12) (hcap : cap ≤ 64) {i : ℕ} (hi : i < cap) :
    0 + nonceSize ≤ WindowArray.size nonceSize (.buf i) := by
  have hrow : WindowArray.size nonceSize (.buf i) = 12 :=
    if_pos (Nat.lt_of_lt_of_le hi hcap)
  rw [hrow, Nat.zero_add]
  exact hsize

theorem allIn_initAccesses (hsize : nonceSize ≤ 12) (hcap : cap ≤ 64) :
    AllIn (WindowArray.size nonceSize) (initAccesses nonceSize cap) := by
  rw [initAccesses, allIn_flatMap]
  intro i hi a ha
  obtain ⟨j, hj, rfl⟩ := List.mem_map.mp ha
  have hfits := fits_buf hsize hcap (List.mem_range.mp hi)
  have hj := List.mem_range.mp hj
  change j + 1 ≤ WindowArray.size nonceSize (.buf i)
  omega

theorem allIn_compareRows (hsize : nonceSize ≤ 12) (hcap : cap ≤ 64)
    (n : Bytes nonceSize) {i : ℕ} {rows : List (Bytes 12)} (hrows : i + rows.length ≤ cap) :
    AllIn (WindowArray.size nonceSize) (compareRows n i rows) := by
  induction rows generalizing i with
  | nil => exact allIn_nil
  | cons row rows ih =>
      rw [List.length_cons] at hrows
      have hrow := fits_buf hsize hcap (show i < cap by omega)
      have hnonce : 0 + nonceSize ≤ WindowArray.size nonceSize .nonce := (Nat.zero_add _).le
      rw [compareRows]
      refine allIn_cons.mpr ⟨hrow, allIn_cons.mpr ⟨hnonce, ?_⟩⟩
      split
      · exact allIn_nil
      · exact ih (by omega)

theorem allIn_seenAccesses (w : ReplayWindow nonceSize cap) (n : Bytes nonceSize) :
    AllIn (WindowArray.size nonceSize) (w.seenAccesses n) := by
  refine allIn_compareRows w.nonceSize_le w.cap_le n ?_
  rw [Nat.zero_add]
  exact List.length_take_le _ _

theorem allIn_addAccesses (w : ReplayWindow nonceSize cap) :
    AllIn (WindowArray.size nonceSize) w.addAccesses := by
  rw [addAccesses, allIn_memcpy]
  exact ⟨(Nat.zero_add _).le, fits_buf w.nonceSize_le w.cap_le w.idx_lt⟩

theorem allIn_addsAccesses (w : ReplayWindow nonceSize cap) (ns : List (Bytes nonceSize)) :
    AllIn (WindowArray.size nonceSize) (w.addsAccesses ns) := by
  induction ns generalizing w with
  | nil => exact allIn_nil
  | cons n ns ih => exact allIn_append.mpr ⟨w.allIn_addAccesses, ih (w.add n)⟩

/-! ## The window -/

section

variable (memory : List.Vector (Bytes 12) 64) (hsize : nonceSize ≤ 12) (hpos : 0 < cap)
  (hcap : cap ≤ 64)

/-- A nonce that is not all zero is seen exactly while it is among the last `cap` nonces
added. -/
theorem seen_adds_init_iff (ns : List (Bytes nonceSize)) {n : Bytes nonceSize}
    (hn : n ≠ Bytes.zero nonceSize) :
    ((init memory hsize hpos hcap).adds ns).seen n = true ↔
      n ∈ ns.drop (ns.length - cap) := by
  rw [seen_iff, ring_adds]
  exact RingBuffer.mem_adds_of_replicate (buf_ring_init memory hsize hpos hcap) ns hn

/-- The replay window is an exact sliding window over the nonces added, and neither its
index nor an access of its functions leaves the array. -/
theorem window_exact (ns : List (Bytes nonceSize)) :
    (∀ n ≠ Bytes.zero nonceSize,
      ((init memory hsize hpos hcap).adds ns).seen n = true ↔
        n ∈ ns.drop (ns.length - cap)) ∧
      ((init memory hsize hpos hcap).adds ns).idx < cap ∧
      AllIn (WindowArray.size nonceSize) (initAccesses nonceSize cap ++
        (init memory hsize hpos hcap).addsAccesses ns) ∧
      ∀ n, AllIn (WindowArray.size nonceSize)
        (((init memory hsize hpos hcap).adds ns).seenAccesses n) := by
  refine ⟨?_, ?_, ?_, ?_⟩
  · intro n hn
    exact seen_adds_init_iff memory hsize hpos hcap ns hn
  · exact ((init memory hsize hpos hcap).adds ns).idx_lt
  · exact allIn_append.mpr ⟨allIn_initAccesses hsize hcap, allIn_addsAccesses _ ns⟩
  · intro n
    exact allIn_seenAccesses _ n

end

/-- After two nonces a window of one row has seen the second and no longer the first. -/
theorem window_exact_two :
    ((init (List.Vector.replicate 64 (Bytes.zero 12)) (by decide : 1 ≤ 12)
        Nat.one_pos (by decide)).adds
          [List.Vector.replicate 1 7, List.Vector.replicate 1 9]).seen
        (List.Vector.replicate 1 9) = true ∧
      ¬ ((init (List.Vector.replicate 64 (Bytes.zero 12)) (by decide : 1 ≤ 12)
        Nat.one_pos (by decide)).adds
          [List.Vector.replicate 1 7, List.Vector.replicate 1 9]).seen
        (List.Vector.replicate 1 7) = true := by
  obtain ⟨hseen, -⟩ := window_exact (List.Vector.replicate 64 (Bytes.zero 12))
    (by decide : 1 ≤ 12) Nat.one_pos (by decide)
    [List.Vector.replicate 1 7, List.Vector.replicate 1 9]
  refine ⟨(hseen _ (by decide)).mpr (by decide), ?_⟩
  rw [hseen _ (by decide)]
  decide

end ReplayWindow

end LifiAuth
