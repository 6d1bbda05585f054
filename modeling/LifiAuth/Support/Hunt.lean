import Mathlib.Data.List.Infix
import Mathlib.Algebra.Order.Group.Nat
import Mathlib.Tactic.Common

/-!
# Hunting for a pattern in a stream

The usual way of looking for a fixed marker in a byte stream keeps the number of
marker symbols matched so far.  On a mismatch it restarts at one if the offending
symbol is the marker's first one, and at zero otherwise.  That shortcut is only
correct for markers whose first symbol does not occur again in them; this file
proves the two facts a parser needs about such a hunt:

* whatever count is reached, that many marker symbols have just been read, so the
  hunt never completes inside a stretch that does not contain the marker;
* from any count, reading the marker completes it at its last symbol and not
  earlier.

A parser that restarts at zero on every mismatch has the first fact but not the
second.  For it the file says which stretches leave nothing counted, and so let it
find a marker that follows.
-/

namespace LifiAuth.Support

variable {α : Type*} [DecidableEq α]

/-- Number of symbols of `p` matched after reading `a`, when `k` were matched
before it. -/
def huntStep (p : List α) (k : ℕ) (a : α) : ℕ :=
  if p[k]? = some a then k + 1 else if p.head? = some a then 1 else 0

/-- The hunt over a finite stretch of the stream. -/
def hunt (p : List α) (k : ℕ) (w : List α) : ℕ :=
  w.foldl (huntStep p) k

@[simp] theorem hunt_nil (p : List α) (k : ℕ) : hunt p k [] = k := rfl

@[simp] theorem hunt_cons (p : List α) (k : ℕ) (a : α) (w : List α) :
    hunt p k (a :: w) = hunt p (huntStep p k a) w := rfl

theorem hunt_concat (p : List α) (k : ℕ) (w : List α) (a : α) :
    hunt p k (w ++ [a]) = huntStep p (hunt p k w) a := by
  simp [hunt]

omit [DecidableEq α] in
/-- A symbol that continues the pattern leaves one more of its symbols at the end. -/
theorem take_succ_suffix {p w : List α} {k : ℕ} {a : α} (h : p.take k <:+ w)
    (hmatch : p[k]? = some a) : p.take (k + 1) <:+ w ++ [a] := by
  obtain ⟨hk, hget⟩ := List.getElem?_eq_some_iff.mp hmatch
  rw [← List.take_concat_get' p _ hk, hget]
  obtain ⟨v, hv⟩ := h
  exact ⟨v, by rw [← hv, List.append_assoc]⟩

/-- If the symbols counted are the last ones read, so are those counted next. -/
theorem take_huntStep_suffix {p w : List α} {k : ℕ} (h : p.take k <:+ w) (a : α) :
    p.take (huntStep p k a) <:+ w ++ [a] := by
  unfold huntStep
  split
  · next hmatch => exact take_succ_suffix h hmatch
  · split
    · next hhead =>
        obtain ⟨t, rfl⟩ := List.head?_eq_some_iff.mp hhead
        exact ⟨w, by simp⟩
    · simp

/-- The symbols counted by the hunt are the last ones read. -/
theorem take_hunt_suffix (p w : List α) : p.take (hunt p 0 w) <:+ w := by
  induction w using List.reverseRecOn with
  | nil => simp
  | append_singleton w a ih =>
      rw [hunt_concat]
      exact take_huntStep_suffix ih a

/-- A completed hunt has just read the whole pattern. -/
theorem suffix_of_hunt_eq_length {p w : List α}
    (h : hunt p 0 w = p.length) : p <:+ w := by
  have hsuffix := take_hunt_suffix p w
  rwa [h, List.take_length] at hsuffix

theorem huntStep_le_length {p : List α} {k : ℕ} {a : α} :
    huntStep p k a ≤ p.length := by
  unfold huntStep
  split
  · next hmatch =>
      obtain ⟨hk, -⟩ := List.getElem?_eq_some_iff.mp hmatch
      omega
  · split
    · next hhead =>
        obtain ⟨t, rfl⟩ := List.head?_eq_some_iff.mp hhead
        simp
    · simp

theorem hunt_le_length {p w : List α} {k : ℕ} (hk : k ≤ p.length) :
    hunt p k w ≤ p.length := by
  induction w generalizing k with
  | nil => simpa using hk
  | cons a w ih => exact ih huntStep_le_length

/-- A stretch that does not contain the pattern never completes the hunt. -/
theorem hunt_lt_length_of_not_infix {p g v : List α}
    (hp : ¬ p <:+: g) (hv : v <+: g) : hunt p 0 v < p.length := by
  refine lt_of_le_of_ne (hunt_le_length (Nat.zero_le _)) fun heq => hp ?_
  exact (suffix_of_hunt_eq_length heq).isInfix.trans hv.isInfix

/-- A pattern whose first symbol occurs only at its start. -/
def FreshHead (p : List α) : Prop :=
  ∃ a t, p = a :: t ∧ a ∉ t

instance (p : List α) : Decidable (FreshHead p) :=
  match p with
  | [] => isFalse (by rintro ⟨a, t, h, -⟩; simp at h)
  | a :: t =>
      if h : a ∈ t then
        isFalse (by
          rintro ⟨b, s, hp, hb⟩
          obtain ⟨rfl, rfl⟩ := List.cons.inj hp
          exact hb h)
      else isTrue ⟨a, t, rfl, h⟩

/-- Reading the first symbol of such a pattern always leaves a count of one. -/
theorem huntStep_head {a : α} {t : List α} (ha : a ∉ t) (k : ℕ) :
    huntStep (a :: t) k a = 1 := by
  unfold huntStep
  split
  · next hmatch =>
      cases k with
      | zero => rfl
      | succ k =>
          rw [List.getElem?_cons_succ] at hmatch
          exact absurd (List.mem_of_getElem? hmatch) ha
  · simp

/-- From any count, reading the first `i` symbols of the pattern leaves a count
of exactly `i`. -/
theorem hunt_take {p : List α} (hp : FreshHead p) (k : ℕ) {i : ℕ}
    (hi : 0 < i) (hip : i ≤ p.length) : hunt p k (p.take i) = i := by
  obtain ⟨a, t, rfl, ha⟩ := hp
  induction i with
  | zero => omega
  | succ i ih =>
      rcases Nat.eq_zero_or_pos i with rfl | hpos
      · simp [huntStep_head ha]
      · have hlt : i < (a :: t).length := by omega
        rw [← List.take_concat_get' (a :: t) i hlt, hunt_concat,
          ih hpos (by omega)]
        simp [huntStep, List.getElem?_eq_getElem hlt]

/-! ## The hunt that restarts at zero

Some parsers drop the offending symbol on a mismatch, even where it is the marker's
first one.  Such a hunt still only completes behind the marker, but it may miss it. -/

/-- The strict step: whatever does not continue the pattern discards what was
matched. -/
def strictStep (p : List α) (k : ℕ) (a : α) : ℕ :=
  if p[k]? = some a then k + 1 else 0

def strictHunt (p : List α) (k : ℕ) (w : List α) : ℕ :=
  w.foldl (strictStep p) k

@[simp] theorem strictHunt_nil (p : List α) (k : ℕ) : strictHunt p k [] = k := rfl

@[simp] theorem strictHunt_cons (p : List α) (k : ℕ) (a : α) (w : List α) :
    strictHunt p k (a :: w) = strictHunt p (strictStep p k a) w := rfl

theorem strictHunt_append (p : List α) (k : ℕ) (v w : List α) :
    strictHunt p k (v ++ w) = strictHunt p (strictHunt p k v) w :=
  List.foldl_append

theorem strictStep_le_length (p : List α) (k : ℕ) (a : α) :
    strictStep p k a ≤ p.length := by
  unfold strictStep
  split
  · next hmatch =>
      obtain ⟨hk, -⟩ := List.getElem?_eq_some_iff.mp hmatch
      exact hk
  · exact Nat.zero_le _

/-- As for the other hunt, the symbols counted are the last ones read. -/
theorem take_strictStep_suffix {p w : List α} {k : ℕ} (h : p.take k <:+ w) (a : α) :
    p.take (strictStep p k a) <:+ w ++ [a] := by
  unfold strictStep
  split
  · next hmatch => exact take_succ_suffix h hmatch
  · rw [List.take_zero]
    exact List.nil_suffix

/-- From zero, reading the first `i` symbols of the pattern leaves a count of `i`. -/
theorem strictHunt_take {p : List α} {i : ℕ} (hi : i ≤ p.length) :
    strictHunt p 0 (p.take i) = i := by
  induction i with
  | zero => rfl
  | succ i ih =>
      rw [← List.take_concat_get' p i hi, strictHunt_append, ih (Nat.le_of_lt hi)]
      simp [strictStep, List.getElem?_eq_getElem hi]

/-- Symbols other than the pattern's first one leave a count of zero alone. -/
theorem strictHunt_zero_of_not_mem {a : α} {t w : List α} (hw : a ∉ w) :
    strictHunt (a :: t) 0 w = 0 := by
  induction w with
  | nil => rfl
  | cons b w ih =>
      rw [List.mem_cons, not_or] at hw
      have hstep : strictStep (a :: t) 0 b = 0 :=
        if_neg fun h => hw.1 (Option.some.inj h)
      rw [strictHunt_cons, hstep]
      exact ih hw.2

/-- From any other count the pattern is missed: its first symbol breaks the match,
and none of the others starts a new one. -/
theorem strictHunt_missed {p : List α} (hp : FreshHead p) {k i : ℕ} (hk : 0 < k)
    (hi : 0 < i) : strictHunt p k (p.take i) = 0 := by
  obtain ⟨a, t, rfl, ha⟩ := hp
  obtain ⟨k, rfl⟩ := Nat.exists_eq_succ_of_ne_zero hk.ne'
  obtain ⟨i, rfl⟩ := Nat.exists_eq_succ_of_ne_zero hi.ne'
  have hstep : strictStep (a :: t) (k + 1) a = 0 := by
    refine if_neg fun h => ha ?_
    rw [List.getElem?_cons_succ] at h
    exact List.mem_of_getElem? h
  rw [List.take_succ_cons, strictHunt_cons, hstep]
  exact strictHunt_zero_of_not_mem fun h => ha (List.mem_of_mem_take h)

/-- A start of the pattern together with the symbol that breaks it. -/
def BrokenStart (p piece : List α) : Prop :=
  ∃ i < p.length, ∃ a, p[i]? ≠ some a ∧ piece = p.take i ++ [a]

/-- The stretch is made of broken starts of the pattern, with none left open at its
end. -/
def Broken (p w : List α) : Prop :=
  ∃ pieces : List (List α), (∀ piece ∈ pieces, BrokenStart p piece) ∧
    pieces.flatten = w

theorem strictHunt_brokenStart {p piece : List α} (h : BrokenStart p piece) :
    strictHunt p 0 piece = 0 := by
  obtain ⟨i, hi, a, ha, rfl⟩ := h
  rw [strictHunt_append, strictHunt_take (Nat.le_of_lt hi)]
  exact if_neg ha

/-- Up to the symbols that are still counted, a stretch in which the hunt does not
complete is made of broken starts. -/
theorem broken_append_take {p w : List α}
    (hw : ∀ v, v <+: w → strictHunt p 0 v < p.length) :
    ∃ v, Broken p v ∧ w = v ++ p.take (strictHunt p 0 w) := by
  induction w using List.reverseRecOn with
  | nil => exact ⟨[], ⟨[], by simp, rfl⟩, rfl⟩
  | append_singleton w a ih =>
      obtain ⟨v, ⟨pieces, hpieces, hflatten⟩, hv⟩ := ih fun v hv =>
        hw v (hv.trans (List.prefix_append w [a]))
      have hlt : strictHunt p 0 w < p.length := hw w (List.prefix_append w [a])
      have hstep : strictHunt p 0 (w ++ [a]) = strictStep p (strictHunt p 0 w) a :=
        strictHunt_append p 0 w [a]
      rw [hstep, strictStep]
      split
      · next hmatch =>
          obtain ⟨hk, hget⟩ := List.getElem?_eq_some_iff.mp hmatch
          refine ⟨v, ⟨pieces, hpieces, hflatten⟩, ?_⟩
          rw [← List.take_concat_get' p _ hk, hget, ← List.append_assoc, ← hv]
      · next hmatch =>
          refine ⟨w ++ [a],
            ⟨pieces ++ [p.take (strictHunt p 0 w) ++ [a]], ?_, ?_⟩, ?_⟩
          · intro piece hpiece
            rcases List.mem_append.mp hpiece with hpiece | hpiece
            · exact hpieces piece hpiece
            · exact ⟨_, hlt, a, hmatch, List.mem_singleton.mp hpiece⟩
          · rw [List.flatten_append, hflatten, List.flatten_singleton,
              ← List.append_assoc, ← hv]
          · rw [List.take_zero, List.append_nil]

theorem strictHunt_of_broken {p w : List α} (h : Broken p w) : strictHunt p 0 w = 0 := by
  obtain ⟨pieces, hpieces, rfl⟩ := h
  induction pieces with
  | nil => rfl
  | cons piece pieces ih =>
      obtain ⟨hpiece, hpieces⟩ := List.forall_mem_cons.mp hpieces
      rw [List.flatten_cons, strictHunt_append, strictHunt_brokenStart hpiece]
      exact ih hpieces

/-- The symbols counted by the strict hunt are the last ones read. -/
theorem take_strictHunt_suffix (p w : List α) : p.take (strictHunt p 0 w) <:+ w := by
  induction w using List.reverseRecOn with
  | nil => simp
  | append_singleton w a ih =>
      rw [strictHunt_append]
      exact take_strictStep_suffix ih a

theorem strictHunt_le_length {p w : List α} {k : ℕ} (hk : k ≤ p.length) :
    strictHunt p k w ≤ p.length := by
  induction w generalizing k with
  | nil => exact hk
  | cons a w ih => exact ih (strictStep_le_length p k a)

theorem strictHunt_lt_length_of_not_infix {p g v : List α} (hp : ¬ p <:+: g)
    (hv : v <+: g) : strictHunt p 0 v < p.length := by
  refine lt_of_le_of_ne (strictHunt_le_length (Nat.zero_le _)) fun heq => hp ?_
  have hsuffix := take_strictHunt_suffix p v
  rw [heq, List.take_length] at hsuffix
  exact hsuffix.isInfix.trans hv.isInfix

/-- In a stretch without the pattern, nothing is left open exactly when it is made of
broken starts. -/
theorem strictHunt_eq_zero_iff {p g : List α} (hp : ¬ p <:+: g) :
    strictHunt p 0 g = 0 ↔ Broken p g := by
  constructor
  · intro h
    obtain ⟨v, hv, hg⟩ := broken_append_take fun v hv =>
      strictHunt_lt_length_of_not_infix hp hv
    rw [h, List.take_zero, List.append_nil] at hg
    rw [hg]
    exact hv
  · exact strictHunt_of_broken

/-! ## Stretches of a stream -/

/-- The members of `ys` are found in the stream one after another, each in a stretch
of its own that has `R` to it. -/
inductive Stretches {β : Type*} (R : β → List α → Prop) : List α → List β → Prop where
  | nil (w : List α) : Stretches R w []
  | skip (gap : List α) {w : List α} {ys : List β} :
      Stretches R w ys → Stretches R (gap ++ w) ys
  | cons {y : β} {v w : List α} {ys : List β} :
      R y v → Stretches R w ys → Stretches R (v ++ w) (y :: ys)

end LifiAuth.Support
