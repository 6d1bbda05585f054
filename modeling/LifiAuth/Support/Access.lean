import Mathlib.Data.List.Basic
import Mathlib.Tactic.Common

/-!
# Array accesses

What a program reads and writes, as stretches of its arrays.  A stretch stands for
what the access may touch: a read that stops early touches less.  The rules say when
copies, strings, strings that grow and hexadecimal dumps stay within their arrays.
Accesses may be mixed with steps of the unsigned counters that they are computed from.
-/

namespace LifiAuth.Support

/-- `count` entries of an array from `first` on. -/
structure Access (ι : Type) where
  array : ι
  first : ℕ
  count : ℕ

namespace Access

variable {ι : Type} (size : ι → ℕ)

def InBounds (a : Access ι) : Prop :=
  a.first + a.count ≤ size a.array

instance (a : Access ι) : Decidable (a.InBounds size) :=
  inferInstanceAs (Decidable (_ ≤ _))

def AllIn (l : List (Access ι)) : Prop :=
  ∀ a ∈ l, a.InBounds size

/-! ## Idioms of C -/

/-- `memcpy(&dst[d], &src[s], n)`. -/
def memcpy (dst : ι) (d : ℕ) (src : ι) (s n : ℕ) : List (Access ι) :=
  [⟨src, s, n⟩, ⟨dst, d, n⟩]

/-- `strcat(dst, src)` on strings of these lengths. -/
def strcat (dst : ι) (dstLen : ℕ) (src : ι) (srcLen : ℕ) : List (Access ι) :=
  [⟨dst, 0, dstLen + 1⟩, ⟨src, 0, srcLen + 1⟩, ⟨dst, dstLen, srcLen + 1⟩]

/-- `n` rounds of `snprintf(tmp, sizeof(tmp), "%02X ", src[i])` and
`strcat(str, tmp)`, where `str` holds `len` characters. -/
def appendHex (str tmp src : ι) : ℕ → ℕ → ℕ → List (Access ι)
  | _, _, 0 => []
  | len, i, n + 1 =>
      [⟨src, i, 1⟩, ⟨tmp, 0, 4⟩] ++ strcat str len tmp 3 ++
        appendHex str tmp src (len + 3) (i + 1) n

/-- `n` rounds of `sprintf(dst + i * 2, "%02x", src[i])`, and the terminator. -/
def hexDump (dst src : ι) (n : ℕ) : List (Access ι) :=
  (List.range n).flatMap (fun i => [⟨src, i, 1⟩, ⟨dst, i * 2, 3⟩]) ++
    [⟨dst, n * 2, 1⟩]

/-! ## Rules -/

variable {size}

@[simp] theorem allIn_nil : AllIn size [] :=
  List.forall_mem_nil _

@[simp] theorem allIn_cons {a : Access ι} {l : List (Access ι)} :
    AllIn size (a :: l) ↔ a.first + a.count ≤ size a.array ∧ AllIn size l :=
  List.forall_mem_cons

@[simp] theorem allIn_append {l l' : List (Access ι)} :
    AllIn size (l ++ l') ↔ AllIn size l ∧ AllIn size l' :=
  List.forall_mem_append

theorem allIn_flatMap {α : Type} {l : List α} {f : α → List (Access ι)} :
    AllIn size (l.flatMap f) ↔ ∀ x ∈ l, AllIn size (f x) := by
  constructor
  · intro h x hx a ha
    exact h a (List.mem_flatMap.mpr ⟨x, hx, ha⟩)
  · intro h a ha
    obtain ⟨x, hx, ha⟩ := List.mem_flatMap.mp ha
    exact h x hx a ha

@[simp] theorem allIn_flatten {ls : List (List (Access ι))} :
    AllIn size ls.flatten ↔ ∀ l ∈ ls, AllIn size l :=
  List.forall_mem_flatten

@[simp] theorem allIn_memcpy {dst src : ι} {d s n : ℕ} :
    AllIn size (memcpy dst d src s n) ↔ s + n ≤ size src ∧ d + n ≤ size dst := by
  simp [memcpy]

theorem allIn_appendHex {str tmp src : ι} {len i n : ℕ} (htmp : 4 ≤ size tmp)
    (hsrc : i + n ≤ size src) (hstr : len + 3 * n + 1 ≤ size str) :
    AllIn size (appendHex str tmp src len i n) := by
  induction n generalizing len i with
  | zero => exact allIn_nil
  | succ n ih =>
      have hrest : AllIn size (appendHex str tmp src (len + 3) (i + 1) n) :=
        ih (by omega) (by omega)
      simp only [appendHex, strcat, allIn_append, allIn_cons, allIn_nil, hrest, and_true]
      omega

theorem allIn_hexDump {dst src : ι} {n : ℕ} (hsrc : n ≤ size src)
    (hdst : n * 2 + 1 ≤ size dst) : AllIn size (hexDump dst src n) := by
  rw [hexDump, allIn_append, allIn_flatMap]
  refine ⟨?_, allIn_cons.mpr ⟨hdst, allIn_nil⟩⟩
  intro i hi
  have hlt := List.mem_range.mp hi
  simp only [allIn_cons, allIn_nil, and_true]
  omega

end Access

/-! ## Counters -/

/-- An access, or a step of an unsigned counter. -/
inductive Touch (ι : Type) where
  | access (a : Access ι)
  | add (x n : ℕ)
  | sub (x n : ℕ)

namespace Touch

variable {ι : Type} (size : ι → ℕ) (limit : ℕ)

/-- The access is in bounds, and the counter does not wrap at `limit` or below 0. -/
def Safe : Touch ι → Prop
  | access a => a.InBounds size
  | add x n => x + n < limit
  | sub x n => n ≤ x

def AllSafe (l : List (Touch ι)) : Prop :=
  ∀ o ∈ l, o.Safe size limit

variable {size limit}

@[simp] theorem allSafe_nil : AllSafe size limit [] :=
  List.forall_mem_nil _

@[simp] theorem allSafe_append {l l' : List (Touch ι)} :
    AllSafe size limit (l ++ l') ↔ AllSafe size limit l ∧ AllSafe size limit l' :=
  List.forall_mem_append

@[simp] theorem allSafe_access {a : Access ι} {l : List (Touch ι)} :
    AllSafe size limit (access a :: l) ↔
      a.first + a.count ≤ size a.array ∧ AllSafe size limit l :=
  List.forall_mem_cons

@[simp] theorem allSafe_add {x n : ℕ} {l : List (Touch ι)} :
    AllSafe size limit (add x n :: l) ↔ x + n < limit ∧ AllSafe size limit l :=
  List.forall_mem_cons

@[simp] theorem allSafe_sub {x n : ℕ} {l : List (Touch ι)} :
    AllSafe size limit (sub x n :: l) ↔ n ≤ x ∧ AllSafe size limit l :=
  List.forall_mem_cons

@[simp] theorem allSafe_map_access {l : List (Access ι)} :
    AllSafe size limit (l.map access) ↔ Access.AllIn size l :=
  List.forall_mem_map

end Touch

end LifiAuth.Support
