import Mathlib.Data.List.Basic
import Mathlib.Tactic.Common

/-!
# Streaming transformers

An object that is fed with `sink`, drained with `poll` into buffers of limited size
and told with `finish` that no more input comes.  A call may take less than it is
offered, so a driver has to loop.  What such an object computes is stated with a
relation between its states and what went in and came out so far; the rules say
what the drivers get out of an object that computes a function.
-/

namespace LifiAuth.Support

/-- `sink` returns how many values it took (`none` is an error), `poll` whether
there may be more and the values it wrote to a buffer of the given size, and
`finish` whether there is more to poll. -/
structure Streamer (α β : Type) where
  State : Type
  alloc : State
  sink : State → List α → Option ℕ × State
  poll : State → ℕ → Bool × List β × State
  finish : State → Bool × State

namespace Streamer

variable {α β : Type} (S : Streamer α β)

/-! ## Drivers -/

/-- `do { poll } while (more && size < cap)` over a buffer of `cap` values, of which
`out` are written; `fuel` bounds the rounds. -/
def pollLoop (cap : ℕ) : ℕ → S.State → List β → List β × S.State
  | 0, s, out => (out, s)
  | fuel + 1, s, out =>
      let (more, values, s) := S.poll s (cap - out.length)
      if more ∧ (out ++ values).length < cap then
        pollLoop cap fuel s (out ++ values)
      else (out ++ values, s)

/-- Sink until nothing is left, draining into a buffer of `cap` values after each
call; an error ends the loop.  `none` stands for rounds that take nothing any
more. -/
def sinkLoop (cap : ℕ) :
    ℕ → S.State → List α → List β → Option (List β × S.State)
  | _, s, [], out => some (out, s)
  | 0, _, _ :: _, _ => none
  | fuel + 1, s, a :: rest, out =>
      let (taken, s) := S.sink s (a :: rest)
      let (out, s) := S.pollLoop cap (cap + 1) s out
      match taken with
      | none => some (out, s)
      | some k => sinkLoop cap fuel s ((a :: rest).drop k) out

/-- `do { poll } while (more && size < cap)`, if it ends within `fuel` rounds. -/
def drainWithin (cap : ℕ) : ℕ → S.State → List β → Option (List β × S.State)
  | 0, _, _ => none
  | fuel + 1, s, out =>
      let (more, values, s) := S.poll s (cap - out.length)
      if more ∧ (out ++ values).length < cap then
        drainWithin cap fuel s (out ++ values)
      else some (out ++ values, s)

/-- `while (sunk < size) { sink; drain; if (error) break; }`, if it and the loops in
it end within `fuel` rounds. -/
def feedWithin (cap : ℕ) : ℕ → S.State → List α → List β → Option (List β × S.State)
  | _, s, [], out => some (out, s)
  | 0, _, _ :: _, _ => none
  | fuel + 1, s, a :: rest, out =>
      let (taken, s) := S.sink s (a :: rest)
      match S.drainWithin cap (fuel + 1) s out with
      | none => none
      | some (out, s) =>
          match taken with
          | none => some (out, s)
          | some k => feedWithin cap fuel s ((a :: rest).drop k) out

/-! ## What an object computes -/

/-- `f false xs` is the output that the input `xs` makes available, `f true xs` the
output once no more input comes.  `Rep s done xs ys`: in state `s`, `xs` went in and
`ys` came out. -/
structure Computes (f : Bool → List α → List β)
    (Rep : S.State → Bool → List α → List β → Prop) : Prop where
  nil : f false [] = []
  mono : ∀ xs zs, f false xs <+: f false (xs ++ zs)
  alloc : Rep S.alloc false [] []
  written : ∀ {s done xs ys}, Rep s done xs ys → ys <+: f done xs
  sink : ∀ {s xs ys data k}, Rep s false xs ys →
    (S.sink s data).1 = some k →
      Rep (S.sink s data).2 false (xs ++ data.take k) ys
  poll : ∀ {s done xs ys n}, Rep s done xs ys → 0 < n →
    Rep (S.poll s n).2.2 done xs (ys ++ (S.poll s n).2.1)
  poll_le : ∀ s n, (S.poll s n).2.1.length ≤ n
  poll_full : ∀ {s done xs ys n}, Rep s done xs ys → 0 < n →
    (S.poll s n).1 = true → (S.poll s n).2.1.length = n
  poll_empty : ∀ {s done xs ys n}, Rep s done xs ys → 0 < n →
    (S.poll s n).1 = false → ys ++ (S.poll s n).2.1 = f done xs
  finish : ∀ {s xs ys}, Rep s false xs ys → Rep (S.finish s).2 true xs ys
  finish_done : ∀ {s xs ys}, Rep s false xs ys → (S.finish s).1 = false →
    ys = f true xs

/-- A drained object takes something. -/
def Progresses (f : Bool → List α → List β)
    (Rep : S.State → Bool → List α → List β → Prop) : Prop :=
  ∀ s xs data, Rep s false xs (f false xs) → data ≠ [] →
    ∃ k, (S.sink s data).1 = some (k + 1)

variable {S} {f : Bool → List α → List β}
  {Rep : S.State → Bool → List α → List β → Prop}

/-- One poll fills the buffer or drains the object. -/
theorem Computes.poll_cases (h : S.Computes f Rep) {s : S.State} {done : Bool}
    {xs : List α} {ys : List β} {cap : ℕ} (hrep : Rep s done xs ys)
    (hroom : ys.length < cap) :
    (ys ++ (S.poll s (cap - ys.length)).2.1).length = cap ∨
      (ys ++ (S.poll s (cap - ys.length)).2.1).length < cap ∧
        (S.poll s (cap - ys.length)).1 = false ∧
        ys ++ (S.poll s (cap - ys.length)).2.1 = f done xs := by
  have hn : 0 < cap - ys.length := by omega
  have hle := h.poll_le s (cap - ys.length)
  by_cases hfull : (S.poll s (cap - ys.length)).2.1.length = cap - ys.length
  · left
    rw [List.length_append, hfull]
    omega
  · right
    have hmore : (S.poll s (cap - ys.length)).1 = false := by
      rw [← Bool.not_eq_true]
      exact mt (h.poll_full hrep hn) hfull
    refine ⟨?_, hmore, h.poll_empty hrep hn hmore⟩
    rw [List.length_append]
    omega

/-- The poll loop ends with its first round, with a full buffer or a drained
object. -/
theorem Computes.pollLoop (h : S.Computes f Rep) {s : S.State} {done : Bool}
    {xs : List α} {ys : List β} {cap : ℕ} (hrep : Rep s done xs ys)
    (hroom : ys.length < cap) (fuel : ℕ) :
    Rep (S.pollLoop cap (fuel + 1) s ys).2 done xs
        (S.pollLoop cap (fuel + 1) s ys).1 ∧
      ((S.pollLoop cap (fuel + 1) s ys).1.length = cap ∨
        (S.pollLoop cap (fuel + 1) s ys).1.length < cap ∧
          (S.pollLoop cap (fuel + 1) s ys).1 = f done xs) := by
  have hn : 0 < cap - ys.length := by omega
  have hpoll := h.poll hrep hn
  have hcases := h.poll_cases hrep hroom
  have hend : S.pollLoop cap (fuel + 1) s ys =
      (ys ++ (S.poll s (cap - ys.length)).2.1,
        (S.poll s (cap - ys.length)).2.2) := by
    rw [Streamer.pollLoop]
    refine if_neg ?_
    rintro ⟨hmore, hlt⟩
    rcases hcases with hfull | ⟨-, hempty, -⟩
    · exact absurd hfull (Nat.ne_of_lt hlt)
    · rw [hempty] at hmore
      exact absurd hmore Bool.false_ne_true
  rw [hend]
  refine ⟨hpoll, ?_⟩
  rcases hcases with hfull | ⟨hlt, -, hdrained⟩
  · exact Or.inl hfull
  · exact Or.inr ⟨hlt, hdrained⟩

/-- A buffer that is larger than the whole output drains the object. -/
theorem Computes.pollLoop_of_lt (h : S.Computes f Rep) {s : S.State} {done : Bool}
    {xs : List α} {ys : List β} {cap : ℕ} (hrep : Rep s done xs ys)
    (hcap : (f done xs).length < cap) (fuel : ℕ) :
    (S.pollLoop cap (fuel + 1) s ys).1 = f done xs ∧
      Rep (S.pollLoop cap (fuel + 1) s ys).2 done xs (f done xs) := by
  have hroom : ys.length < cap :=
    Nat.lt_of_le_of_lt (h.written hrep).length_le hcap
  obtain ⟨hrep', hfull | ⟨-, hdrained⟩⟩ := h.pollLoop hrep hroom fuel
  · have hle := (h.written hrep').length_le
    omega
  · rw [hdrained] at hrep'
    exact ⟨hdrained, hrep'⟩

/-- The sink loop feeds in everything, if the buffer has room for the output. -/
theorem Computes.sinkLoop (h : S.Computes f Rep) (hprogress : S.Progresses f Rep)
    {cap fuel : ℕ} {s : S.State} {xs rest : List α}
    (hrep : Rep s false xs (f false xs)) (hfuel : rest.length ≤ fuel)
    (hcap : (f false (xs ++ rest)).length < cap) :
    ∃ s', S.sinkLoop cap fuel s rest (f false xs) =
        some (f false (xs ++ rest), s') ∧
      Rep s' false (xs ++ rest) (f false (xs ++ rest)) := by
  induction fuel generalizing s xs rest with
  | zero =>
      obtain rfl := List.length_eq_zero_iff.mp (Nat.le_zero.mp hfuel)
      rw [List.append_nil]
      exact ⟨s, rfl, hrep⟩
  | succ fuel ih =>
      cases rest with
      | nil =>
          rw [List.append_nil]
          exact ⟨s, rfl, hrep⟩
      | cons a rest =>
          obtain ⟨k, hk⟩ := hprogress s xs (a :: rest) hrep (by simp)
          have hsunk := h.sink hrep hk
          have hsplit : xs ++ a :: rest =
              (xs ++ (a :: rest).take (k + 1)) ++ rest.drop k := by
            rw [List.append_assoc, List.take_succ_cons, List.cons_append,
              List.take_append_drop]
          rw [hsplit] at hcap ⊢
          have hlt : (f false (xs ++ (a :: rest).take (k + 1))).length < cap :=
            Nat.lt_of_le_of_lt (h.mono _ _).length_le hcap
          obtain ⟨hout, hrep'⟩ := h.pollLoop_of_lt hsunk hlt cap
          obtain ⟨s', hloop, hdone⟩ := ih hrep'
            (by
              rw [List.length_drop]
              rw [List.length_cons] at hfuel
              omega)
            hcap
          refine ⟨s', ?_, hdone⟩
          rw [← hloop, Streamer.sinkLoop]
          simp only [hk, hout, List.drop_succ_cons]

/-- A new object is drained. -/
theorem Computes.start (h : S.Computes f Rep) : Rep S.alloc false [] (f false []) := by
  rw [h.nil]
  exact h.alloc

/-! ## Objects that keep their input -/

/-- The object that keeps its whole input and computes the output of each poll
anew; `room` says how much it takes on top of what it has. -/
def buffered (room : List α → ℕ) (f : Bool → List α → List β) : Streamer α β where
  State := Bool × List α × ℕ
  alloc := (false, [], 0)
  sink s data :=
    (some (min (room s.2.1) data.length),
      (s.1, s.2.1 ++ data.take (min (room s.2.1) data.length), s.2.2))
  poll s n :=
    let rest := (f s.1 s.2.1).drop s.2.2
    (decide (n ≤ rest.length), rest.take n,
      (s.1, s.2.1, s.2.2 + (rest.take n).length))
  finish s := (true, (true, s.2.1, s.2.2))

/-- Its state is its input and how much output was taken. -/
def BufferedRep (room : List α → ℕ) (f : Bool → List α → List β)
    (s : (buffered room f).State) (done : Bool) (xs : List α) (ys : List β) : Prop :=
  s = (done, xs, ys.length) ∧ ys <+: f done xs

theorem computes_buffered {room : List α → ℕ} {f : Bool → List α → List β}
    (hnil : f false [] = []) (hmono : ∀ xs zs, f false xs <+: f false (xs ++ zs))
    (hdone : ∀ xs, f false xs <+: f true xs) :
    (buffered room f).Computes f (BufferedRep room f) where
  nil := hnil
  mono := hmono
  alloc := ⟨rfl, List.nil_prefix⟩
  written := fun h => h.2
  sink := by
    rintro s xs ys data k ⟨rfl, hys⟩ hk
    obtain rfl := Option.some.inj hk
    exact ⟨rfl, hys.trans (hmono _ _)⟩
  poll := by
    rintro s done xs ys n ⟨rfl, w, hw⟩ -
    have hrest : (f done xs).drop ys.length = w := by
      rw [← hw, List.drop_left]
    simp only [buffered, hrest]
    refine ⟨by rw [List.length_append], ?_⟩
    rw [← hw]
    exact (List.prefix_append_right_inj ys).mpr (List.take_prefix n w)
  poll_le := by
    intro s n
    exact List.length_take_le n _
  poll_full := by
    rintro s done xs ys n ⟨rfl, -⟩ - hmore
    exact List.length_take_of_le (of_decide_eq_true hmore)
  poll_empty := by
    rintro s done xs ys n ⟨rfl, w, hw⟩ - hempty
    have hrest : (f done xs).drop ys.length = w := by
      rw [← hw, List.drop_left]
    simp only [buffered, hrest, decide_eq_false_iff_not] at hempty ⊢
    rw [List.take_of_length_le (by omega), hw]
  finish := by
    rintro s xs ys ⟨rfl, hys⟩
    exact ⟨rfl, hys.trans (hdone xs)⟩
  finish_done := by
    rintro s xs ys - h
    cases h

theorem progresses_buffered {room : List α → ℕ} {f : Bool → List α → List β}
    (hroom : ∀ xs, 0 < room xs) :
    (buffered room f).Progresses f (BufferedRep room f) := by
  rintro s xs data ⟨rfl, -⟩ hdata
  have hlen := List.length_pos_iff.mpr hdata
  have hpos : min (room xs) data.length ≠ 0 :=
    Nat.ne_of_gt (Nat.lt_min.mpr ⟨hroom xs, hlen⟩)
  obtain ⟨k, hk⟩ := Nat.exists_eq_succ_of_ne_zero hpos
  exact ⟨k, congrArg some hk⟩

end Streamer

end LifiAuth.Support
