import LifiAuth.Support.Bytes

/-!
# NOR flash

A flash as a byte at each address.  Only whole sectors can be erased, which sets all
their bits; programming can only clear bits.
-/

namespace LifiAuth.Support.Nor

/-- What the flash holds. -/
abbrev Image := ℕ → UInt8

/-- Erasing `count` bytes from `off` on takes every sector they lie in. -/
def erase (sectorSize off count : ℕ) (f : Image) : Image := fun a =>
  if off / sectorSize * sectorSize ≤ a ∧
      a < (off + count + sectorSize - 1) / sectorSize * sectorSize
  then 0xFF else f a

def program (off : ℕ) (page : List UInt8) (f : Image) : Image := fun a =>
  if off ≤ a then f a &&& page.getD (a - off) 0xFF else f a

/-- The `n` bytes from `off` on. -/
def read (off n : ℕ) (f : Image) : Bytes n :=
  ⟨(List.range n).map fun i => f (off + i), by simp⟩

variable {sectorSize off count n : ℕ} {f f' : Image}

theorem read_congr (h : ∀ i, i < n → f (off + i) = f' (off + i)) :
    read off n f = read off n f' := by
  apply Bytes.ext_toList
  exact List.map_congr_left fun i hi => h i (List.mem_range.mp hi)

theorem toList_read_succ :
    (read off (n + 1) f).toList = f off :: (read (off + 1) n f).toList := by
  simp only [read, Bytes.toList_mk, List.range_succ_eq_map, List.map_cons,
    List.map_map, Nat.add_zero]
  refine congrArg (List.cons _) (List.map_congr_left fun i _ => congrArg f ?_)
  exact (Nat.succ_add_eq_add_succ off i).symm

/-- A part of what is read. -/
theorem slice_read {i len : ℕ} (h : i + len ≤ n) :
    (read off n f).slice i len h = read (off + i) len f := by
  apply Bytes.ext_toList
  apply List.ext_getElem
  · simp only [List.Vector.toList_length]
  · intro k hk _
    simp [read, Bytes.slice, Nat.add_assoc]

/-! ## Erasing -/

/-- On sector boundaries nothing else is erased. -/
theorem erase_of_dvd (hsize : 0 < sectorSize) (hoff : sectorSize ∣ off)
    (hcount : sectorSize ∣ count) (a : ℕ) :
    erase sectorSize off count f a =
      if off ≤ a ∧ a < off + count then 0xFF else f a := by
  obtain ⟨x, rfl⟩ := hoff
  obtain ⟨y, rfl⟩ := hcount
  have hstart : sectorSize * x / sectorSize * sectorSize = sectorSize * x := by
    rw [Nat.mul_div_cancel_left x hsize, Nat.mul_comm]
  have hstop : (sectorSize * x + sectorSize * y + sectorSize - 1) / sectorSize *
      sectorSize = sectorSize * x + sectorSize * y := by
    rw [← Nat.mul_add, Nat.add_sub_assoc hsize, Nat.mul_add_div hsize,
      Nat.div_eq_of_lt (Nat.sub_lt hsize Nat.one_pos), Nat.add_zero, Nat.mul_comm]
  rw [erase, hstart, hstop]

theorem read_erase (hsize : 0 < sectorSize) (hoff : sectorSize ∣ off)
    (hcount : sectorSize ∣ count) :
    read off count (erase sectorSize off count f) =
      List.Vector.replicate count 0xFF := by
  apply Bytes.ext_toList
  refine List.eq_replicate_iff.mpr ⟨by simp, ?_⟩
  intro b hb
  obtain ⟨i, hi, rfl⟩ := List.mem_map.mp hb
  rw [List.mem_range] at hi
  rw [erase_of_dvd hsize hoff hcount, if_pos ⟨by omega, by omega⟩]

theorem read_erase_of_disjoint {start : ℕ} (hsize : 0 < sectorSize)
    (hoff : sectorSize ∣ off) (hcount : sectorSize ∣ count)
    (h : start + n ≤ off ∨ off + count ≤ start) :
    read start n (erase sectorSize off count f) = read start n f := by
  apply read_congr
  intro i hi
  rw [erase_of_dvd hsize hoff hcount, if_neg (by omega)]

/-! ## Programming -/

theorem program_of_outside {page : List UInt8} {a : ℕ}
    (h : a < off ∨ off + page.length ≤ a) : program off page f a = f a := by
  rw [program]
  split
  · rw [List.getD_eq_getElem?_getD, List.getElem?_eq_none (by omega)]
    exact UInt8.and_neg_one
  · rfl

theorem program_of_inside {page : List UInt8} {i : ℕ} (h : i < page.length) :
    program off page f (off + i) = f (off + i) &&& page[i] := by
  rw [program, if_pos (Nat.le_add_right off i), Nat.add_sub_cancel_left,
    List.getD_eq_getElem?_getD, List.getElem?_eq_getElem h, Option.getD_some]

theorem read_program_of_disjoint {start : ℕ} {page : List UInt8}
    (h : start + n ≤ off ∨ off + page.length ≤ start) :
    read start n (program off page f) = read start n f := by
  apply read_congr
  intro i hi
  exact program_of_outside (by omega)

/-- A programmed page, and what follows it. -/
theorem toList_read_program {page : List UInt8} (h : page.length ≤ n) :
    (read off n (program off page f)).toList =
      List.zipWith (· &&& ·) ((read off n f).toList.take page.length) page ++
        (read off n f).toList.drop page.length := by
  apply List.ext_getElem
  · simp only [List.Vector.toList_length, List.length_append, List.length_zipWith,
      List.length_take, List.length_drop]
    omega
  · intro i hi _
    by_cases hpage : i < page.length
    · rw [List.getElem_append_left (by simp; omega)]
      simp [read, program_of_inside hpage]
    · have hout : off + i < off ∨ off + page.length ≤ off + i := by omega
      have hsum : page.length + (i - page.length) = i := by omega
      rw [List.getElem_append_right (by simp; omega)]
      simp [read, program_of_outside hout, Nat.min_eq_left h, hsum]

end LifiAuth.Support.Nor
