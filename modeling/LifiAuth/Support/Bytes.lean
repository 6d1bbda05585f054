import Mathlib.Data.Vector.Basic
import Mathlib.Algebra.Order.Group.Nat
import Mathlib.Tactic.Common

/-!
# Fixed-width byte strings

Byte arrays whose length is part of their type, contiguous slices of them, and
the two-byte big-endian encoding used for lengths and checksums on the wire.
-/

namespace LifiAuth

/-- A byte array of exactly `n` bytes. -/
abbrev Bytes (n : ℕ) := List.Vector UInt8 n

namespace Bytes

/-- The all-zero array, the result of `memset(p, 0, n)` or `secure_zero`. -/
def zero (n : ℕ) : Bytes n := List.Vector.replicate n 0

/-- The `len` bytes of `b` that start at offset `i`. -/
def slice {n : ℕ} (b : Bytes n) (i len : ℕ) (h : i + len ≤ n) : Bytes len :=
  ⟨(b.toList.drop i).take len, by
    have hlen := b.toList_length
    simp only [List.length_take, List.length_drop]
    omega⟩

@[simp] theorem toList_slice {n : ℕ} (b : Bytes n) (i len : ℕ)
    (h : i + len ≤ n) :
    (b.slice i len h).toList = (b.toList.drop i).take len := rfl

/-- Concatenation, keeping track of the length. -/
def append {n m : ℕ} (a : Bytes n) (b : Bytes m) : Bytes (n + m) :=
  ⟨a.toList ++ b.toList, by simp⟩

@[simp] theorem toList_append {n m : ℕ} (a : Bytes n) (b : Bytes m) :
    (a.append b).toList = a.toList ++ b.toList := rfl

@[simp] theorem toList_mk {n : ℕ} (l : List UInt8) (h : l.length = n) :
    List.Vector.toList (⟨l, h⟩ : Bytes n) = l := rfl

/-- A list as an array of its own length. -/
def ofList (l : List UInt8) : Bytes l.length := ⟨l, rfl⟩

@[simp] theorem toList_ofList (l : List UInt8) : (ofList l).toList = l := rfl

theorem ext_toList {n : ℕ} {a b : Bytes n} (h : a.toList = b.toList) :
    a = b :=
  List.Vector.toList_injective h

/-- A slice of an array whose layout is known. -/
theorem slice_eq_of_toList {n len : ℕ} {s : Bytes n} (pre : List UInt8)
    (b : Bytes len) (post : List UInt8) (i : ℕ) (h : i + len ≤ n)
    (hs : s.toList = pre ++ (b.toList ++ post)) (hpre : pre.length = i) :
    s.slice i len h = b := by
  apply ext_toList
  rw [toList_slice, hs, List.drop_left' hpre, List.take_left' b.toList_length]

end Bytes

/-! ## Big-endian words -/

/-- `((uint16_t)hi << 8) | lo`. -/
def be16 (hi lo : UInt8) : UInt16 :=
  (hi.toUInt16 <<< 8) ||| lo.toUInt16

/-- `{(v >> 8) & 0xFF, v & 0xFF}`. -/
def be16Bytes (v : UInt16) : Bytes 2 :=
  ⟨[(v >>> 8).toUInt8, v.toUInt8], rfl⟩

/-- The word held by a two-byte field. -/
def be16Of (b : Bytes 2) : UInt16 :=
  be16 b.head b.tail.head

theorem be16_toNat (hi lo : UInt8) :
    (be16 hi lo).toNat = hi.toNat * 256 + lo.toNat := by
  have hhi := hi.toNat_lt
  have hlo := lo.toNat_lt
  have hshift : (hi.toUInt16 <<< 8).toNat = hi.toNat <<< 8 := by
    simp only [UInt16.toNat_shiftLeft, Nat.shiftLeft_eq]
    simp
    omega
  rw [be16, UInt16.toNat_or, hshift, UInt8.toNat_toUInt16,
    ← Nat.shiftLeft_add_eq_or_of_lt (by simpa using hlo), Nat.shiftLeft_eq]

/-- Reading back the two bytes of a big-endian word gives the word. -/
theorem be16_be16Bytes (v : UInt16) :
    be16 (v >>> 8).toUInt8 v.toUInt8 = v := by
  apply UInt16.toNat_inj.mp
  rw [be16_toNat]
  have hv := v.toNat_lt
  simp [UInt16.toNat_shiftRight, Nat.shiftRight_eq_div_pow]
  omega

@[simp] theorem be16Of_be16Bytes (v : UInt16) : be16Of (be16Bytes v) = v :=
  be16_be16Bytes v

end LifiAuth
