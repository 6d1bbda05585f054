import Mathlib.Data.List.Basic
import Mathlib.Tactic.Common

/-!
# Frames on a line of bytes

A parser that looks at the head of a line takes the first bytes of a frame one by one
and the rest of it with one more look.  If only whole frames are put on the line, the
line is a queue of frames to such a parser, whenever it looks.
-/

namespace LifiAuth.Support

/-- A parser with states `κ` of lines over `ε`, and how the frames `φ` look to it. -/
structure FrameParser (κ ε ρ φ : Type*) where
  look : κ → List ε → ρ × κ × List ε
  quiet : ρ → Bool
  hunting : κ → Prop
  inside : ℕ → κ
  depth : ℕ
  frame : φ → List ε
  report : φ → ρ

namespace FrameParser

variable {κ ε ρ φ : Type*}

/-- `depth` elements of a frame are looked at one by one, the next look takes the rest. -/
structure Lawful (P : FrameParser κ ε ρ φ) : Prop where
  depth_pos : 0 < P.depth
  depth_lt : ∀ f, P.depth < (P.frame f).length
  loud : ∀ f, P.quiet (P.report f) = false
  nil : ∀ k, P.quiet (P.look k []).1 ∧ (P.look k []).2 = (k, [])
  first : ∀ k f line, P.hunting k → P.quiet (P.look k (P.frame f ++ line)).1 ∧
    (P.look k (P.frame f ++ line)).2 = (P.inside 1, (P.frame f).drop 1 ++ line)
  next : ∀ j f line, 0 < j → j < P.depth →
    P.quiet (P.look (P.inside j) ((P.frame f).drop j ++ line)).1 ∧
      (P.look (P.inside j) ((P.frame f).drop j ++ line)).2 =
        (P.inside (j + 1), (P.frame f).drop (j + 1) ++ line)
  last : ∀ f line, ∃ k, P.hunting k ∧
    P.look (P.inside P.depth) ((P.frame f).drop P.depth ++ line) = (P.report f, k, line)

variable (P : FrameParser κ ε ρ φ)

/-- The frames `fs` are on the line, and `j` elements of the first have been taken. -/
inductive Holds : κ → List ε → List φ → ℕ → Prop where
  | between {k : κ} (h : P.hunting k) (fs : List φ) : Holds k (fs.flatMap P.frame) fs 0
  | inside {j : ℕ} (hpos : 0 < j) (hle : j ≤ P.depth) (f : φ) (fs : List φ) :
      Holds (P.inside j) ((P.frame f).drop j ++ fs.flatMap P.frame) (f :: fs) j

variable {P} {k : κ} {line : List ε} {fs : List φ} {f : φ} {j : ℕ}

theorem Holds.put (h : P.Holds k line fs j) (gs : List φ) :
    P.Holds k (line ++ gs.flatMap P.frame) (fs ++ gs) j := by
  cases h with
  | between hk =>
      rw [← List.flatMap_append]
      exact .between hk _
  | inside hpos hle f fs =>
      rw [List.append_assoc, ← List.flatMap_append]
      exact .inside hpos hle f _

theorem Holds.le_depth (h : P.Holds k line fs j) : j ≤ P.depth := by
  cases h with
  | between _ => exact Nat.zero_le _
  | inside _ hle _ _ => exact hle

/-- A look at an empty line does nothing. -/
theorem Holds.look_nil (hP : P.Lawful) (h : P.Holds k line [] j) :
    line = [] ∧ P.quiet (P.look k line).1 ∧ (P.look k line).2 = (k, line) := by
  cases h with
  | between _ => exact ⟨rfl, hP.nil k⟩

/-- A look at a line with a frame on it takes one element of the frame or all that is
left of it. -/
theorem Holds.look_cons (hP : P.Lawful) (h : P.Holds k line (f :: fs) j) :
    j < P.depth ∧ P.quiet (P.look k line).1 ∧
        P.Holds (P.look k line).2.1 (P.look k line).2.2 (f :: fs) (j + 1) ∨
      j = P.depth ∧ (P.look k line).1 = P.report f ∧
        P.Holds (P.look k line).2.1 (P.look k line).2.2 fs 0 := by
  cases h with
  | between hk =>
      refine Or.inl ⟨hP.depth_pos, ?_⟩
      obtain ⟨hquiet, hafter⟩ := hP.first k f (fs.flatMap P.frame) hk
      rw [List.flatMap_cons]
      refine ⟨hquiet, ?_⟩
      rw [hafter]
      exact .inside Nat.one_pos hP.depth_pos f fs
  | inside hpos hle =>
      rcases Nat.lt_or_eq_of_le hle with hlt | rfl
      · refine Or.inl ⟨hlt, ?_⟩
        obtain ⟨hquiet, hafter⟩ := hP.next j f (fs.flatMap P.frame) hpos hlt
        refine ⟨hquiet, ?_⟩
        rw [hafter]
        exact .inside j.succ_pos hlt f fs
      · refine Or.inr ⟨rfl, ?_⟩
        obtain ⟨k, hk, hlast⟩ := hP.last f (fs.flatMap P.frame)
        rw [hlast]
        exact ⟨rfl, .between hk fs⟩

/-- A look leaves the frames or reports the first of them. -/
theorem Holds.look (hP : P.Lawful) (h : P.Holds k line fs j) :
    (P.quiet (P.look k line).1 ∧
        ∃ j', P.Holds (P.look k line).2.1 (P.look k line).2.2 fs j') ∨
      ∃ f fs', fs = f :: fs' ∧ (P.look k line).1 = P.report f ∧
        P.Holds (P.look k line).2.1 (P.look k line).2.2 fs' 0 := by
  cases fs with
  | nil =>
      obtain ⟨-, hquiet, hafter⟩ := h.look_nil hP
      rw [hafter]
      exact Or.inl ⟨hquiet, j, h⟩
  | cons f fs =>
      rcases h.look_cons hP with ⟨-, hquiet, hnext⟩ | ⟨-, hreport, hnext⟩
      · exact Or.inl ⟨hquiet, j + 1, hnext⟩
      · exact Or.inr ⟨f, fs, rfl, hreport, hnext⟩

/-- There are no frames on an empty line. -/
theorem Holds.eq_nil (hP : P.Lawful) (h : P.Holds k line fs j) (hline : line = []) :
    fs = [] := by
  cases h with
  | between _ =>
      cases fs with
      | nil => rfl
      | cons f fs =>
          have hlen := hP.depth_lt f
          rw [(List.append_eq_nil_iff.mp hline).1] at hlen
          exact absurd hlen (Nat.not_lt_zero _)
  | inside _ hle f fs =>
      have hlen := hP.depth_lt f
      have hdrop := (List.append_eq_nil_iff.mp hline).1
      rw [List.drop_eq_nil_iff] at hdrop
      omega

/-! ## What was put on and what was reported -/

variable (P)

/-- Of the frames that were put on the line the reports tell the first ones, and the
others are still on it. -/
def Carried (written : List ε) (reports : List ρ) (k : κ) (line : List ε) : Prop :=
  ∃ taken waiting j, written = (taken ++ waiting).flatMap P.frame ∧
    reports.filter (fun r => !P.quiet r) = taken.map P.report ∧ P.Holds k line waiting j

variable {P} {written : List ε} {reports : List ρ}

theorem carried_start (hk : P.hunting k) : P.Carried [] [] k [] :=
  ⟨[], [], 0, rfl, rfl, .between hk []⟩

theorem Carried.put (h : P.Carried written reports k line) (gs : List φ) :
    P.Carried (written ++ gs.flatMap P.frame) reports k (line ++ gs.flatMap P.frame) := by
  obtain ⟨taken, waiting, j, hwritten, hreports, hline⟩ := h
  refine ⟨taken, waiting ++ gs, j, ?_, hreports, hline.put gs⟩
  rw [hwritten, ← List.flatMap_append, List.append_assoc]

theorem Carried.look (hP : P.Lawful) (h : P.Carried written reports k line) :
    P.Carried written (reports ++ [(P.look k line).1]) (P.look k line).2.1
      (P.look k line).2.2 := by
  obtain ⟨taken, waiting, j, hwritten, hreports, hline⟩ := h
  rcases hline.look hP with ⟨hquiet, j', hnext⟩ | ⟨f, waiting, rfl, hreport, hnext⟩
  · refine ⟨taken, waiting, j', hwritten, ?_, hnext⟩
    rw [List.filter_append, hreports, List.filter_cons_of_neg (by simp [hquiet]),
      List.filter_nil, List.append_nil]
  · refine ⟨taken ++ [f], waiting, 0, ?_, ?_, hnext⟩
    · rw [hwritten, List.append_assoc, List.singleton_append]
    · rw [List.filter_append, hreports, hreport,
        List.filter_cons_of_pos (by simp [hP.loud f]), List.filter_nil, List.map_append,
        List.map_singleton]

/-- The loud reports are those of the frames that were put on, in order: some of them, and
all of them once the line is empty. -/
theorem Carried.reported (hP : P.Lawful) (h : P.Carried written reports k line) :
    ∃ fs : List φ, written = fs.flatMap P.frame ∧
      reports.filter (fun r => !P.quiet r) <+: fs.map P.report ∧
      (line = [] → reports.filter (fun r => !P.quiet r) = fs.map P.report) := by
  obtain ⟨taken, waiting, j, hwritten, hreports, hline⟩ := h
  refine ⟨taken ++ waiting, hwritten, ?_, ?_⟩
  · rw [hreports, List.map_append]
    exact List.prefix_append _ _
  · intro hempty
    rw [hreports, hline.eq_nil hP hempty, List.append_nil]

end FrameParser

end LifiAuth.Support
