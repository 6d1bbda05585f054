import LifiAuth.Support.Machine
import Mathlib.Data.List.ReduceOption

/-!
# Reading a stream line by line

A reader collects what arrives up to a mark and hands it on with the mark; when nothing
arrives for too long it hands on what it has.  If that only happens between lines, the
lines that were written are the lines that are read.
-/

namespace LifiAuth.Support

variable {α β : Type*} [DecidableEq α] (mark : α)

/-- The reader with what it has collected; `none` means that nothing has arrived for too
long. -/
def lineReader : Machine (List α) (Option α) (List α) where
  step
    | pending, some c =>
        if c = mark then ([], [pending ++ [c]]) else (pending ++ [c], [])
    | pending, none => ([], if pending = [] then [] else [pending])

/-- Nothing is missing for too long within a line. -/
def Unbroken (_ : List (List α)) (pending : List α) (c : Option α) : Prop :=
  c = none → pending = []

instance (t : List (List α)) (pending : List α) (c : Option α) :
    Decidable (Unbroken t pending c) :=
  inferInstanceAs (Decidable (_ → _))

namespace LineReader

variable {mark}

/-- Between lines a pause makes no difference. -/
theorem trace_of_unbroken {t : List (List α)} {pending : List α} {stream : List (Option α)}
    (h : (lineReader mark).Admissible Unbroken t pending stream) :
    (lineReader mark).trace pending stream =
      (lineReader mark).trace pending (stream.reduceOption.map some) := by
  induction stream generalizing t pending with
  | nil => rfl
  | cons c stream ih =>
      obtain ⟨hc, hrest⟩ := h
      cases c with
      | none =>
          obtain rfl := hc rfl
          rw [List.reduceOption_cons_of_none]
          exact ih hrest
      | some c =>
          rw [List.reduceOption_cons_of_some, List.map_cons, Machine.trace_cons,
            Machine.trace_cons, ih hrest]

/-- A line is collected up to its end and handed on. -/
theorem runs_line {pending line : List α} (hline : mark ∉ line) :
    (lineReader mark).Runs pending ((line ++ [mark]).map some)
      [pending ++ (line ++ [mark])] [] := by
  induction line generalizing pending with
  | nil =>
      have hstep : (lineReader mark).step pending (some mark) = ([], [pending ++ [mark]]) :=
        if_pos rfl
      exact Machine.Runs.cons hstep (Machine.Runs.nil [])
  | cons c line ih =>
      rw [List.mem_cons, not_or] at hline
      have hstep : (lineReader mark).step pending (some c) = (pending ++ [c], []) :=
        if_neg (Ne.symm hline.1)
      simpa using Machine.Runs.cons hstep (ih hline.2)

/-- Lines that are written one after the other are read one after the other. -/
theorem trace_flatMap {write : β → List α} {lines : List β}
    (hlines : ∀ l ∈ lines, mark ∉ write l) :
    (lineReader mark).trace [] ((lines.flatMap fun l => write l ++ [mark]).map some) =
      lines.map fun l => write l ++ [mark] := by
  suffices hruns : (lineReader mark).Runs []
      ((lines.flatMap fun l => write l ++ [mark]).map some)
      (lines.map fun l => write l ++ [mark]) [] from hruns.trace
  induction lines with
  | nil => exact Machine.Runs.nil []
  | cons l lines ih =>
      obtain ⟨hl, hlines⟩ := List.forall_mem_cons.mp hlines
      have hline : (lineReader mark).Runs [] ((write l ++ [mark]).map some)
          [write l ++ [mark]] [] := runs_line hl
      rw [List.flatMap_cons, List.map_append, List.map_cons]
      exact hline.append (ih hlines)

end LineReader

end LifiAuth.Support
