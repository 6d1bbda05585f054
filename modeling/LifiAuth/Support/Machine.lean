import Mathlib.Data.List.Basic
import Mathlib.Tactic.Common

/-!
# Machines and their traces

A machine reacts to an input by changing its state and emitting outputs.  Its
surroundings may be restricted: whether an input can come may depend on the state
and on everything emitted before, which is how an assumption such as "this value
was not drawn earlier" or "only tags that were computed verify" is stated.

The rules are an invariant rule for states together with their past, for restricted
surroundings and for others, a rule that takes an output back to the step that emitted
it, a rule that says exactly which lists of inputs keep an invariant all along, a rule
for everything that allowed inputs make it emit, a lockstep rule for two machines that
differ only in what does not matter, a rule for what is reached once certain inputs have
come in their order, a rule for a part of the state that steps set or leave alone, and a
rule that carries runs to a machine that a function of the state abstracts to.
-/

namespace LifiAuth.Support

structure Machine (σ ι ο : Type*) where
  step : σ → ι → σ × List ο

namespace Machine

variable {σ ι ο : Type*} (M : Machine σ ι ο)

/-- The state after a list of inputs. -/
def run (s : σ) : List ι → σ
  | [] => s
  | i :: is => run (M.step s i).1 is

/-- What a list of inputs makes the machine emit. -/
def trace (s : σ) : List ι → List ο
  | [] => []
  | i :: is => (M.step s i).2 ++ trace (M.step s i).1 is

@[simp] theorem run_nil (s : σ) : M.run s [] = s := rfl

@[simp] theorem run_cons (s : σ) (i : ι) (is : List ι) :
    M.run s (i :: is) = M.run (M.step s i).1 is := rfl

@[simp] theorem trace_nil (s : σ) : M.trace s [] = [] := rfl

@[simp] theorem trace_cons (s : σ) (i : ι) (is : List ι) :
    M.trace s (i :: is) = (M.step s i).2 ++ M.trace (M.step s i).1 is := rfl

/-! ## Restricted surroundings -/

variable (ok : List ο → σ → ι → Prop)

/-- `Reach ok s t s'`: inputs allowed by `ok` lead from `s` to `s'` and make the
machine emit `t`. -/
inductive Reach (s : σ) : List ο → σ → Prop where
  | refl : Reach s [] s
  | step {t : List ο} {s' : σ} (i : ι) :
      Reach s t s' → ok t s' i → Reach s (t ++ (M.step s' i).2) (M.step s' i).1

variable {M ok} {s : σ}

/-- A property of states and their past that every allowed step keeps holds
wherever the machine gets. -/
theorem Reach.invariant {P : List ο → σ → Prop} (hstart : P [] s)
    (hstep : ∀ t s' i, P t s' → ok t s' i →
      P (t ++ (M.step s' i).2) (M.step s' i).1)
    {t : List ο} {s' : σ} (h : M.Reach ok s t s') : P t s' := by
  induction h with
  | refl => exact hstart
  | step i h hok ih => exact hstep _ _ i ih hok

/-- An output of a prolonged trace is an old one or a new one. -/
theorem split_of_append {t out before after : List ο} {o : ο}
    (h : t ++ out = before ++ o :: after) :
    (∃ w, t = before ++ o :: w ∧ after = w ++ out) ∨
      ∃ w, before = t ++ w ∧ out = w ++ o :: after := by
  rcases List.append_eq_append_iff.mp h with ⟨w, hbefore, hout⟩ | ⟨w, hold, hout⟩
  · exact Or.inr ⟨w, hbefore, hout⟩
  · cases w with
    | nil =>
        rw [List.append_nil] at hold
        exact Or.inr ⟨[], by rw [List.append_nil, hold], hout.symm⟩
    | cons o' w =>
        obtain ⟨rfl, hafter⟩ := List.cons.inj hout
        exact Or.inl ⟨w, hold, hafter⟩

/-- What is split off a list stands at a position of it. -/
theorem position_of_split {is before after : List ι} {i : ι} (h : is = before ++ i :: after) :
    before.length < is.length ∧ before = is.take before.length ∧
      is[before.length]? = some i := by
  subst h
  refine ⟨?_, List.take_left.symm, ?_⟩
  · rw [List.length_append, List.length_cons]
    exact Nat.lt_add_of_pos_right (Nat.succ_pos _)
  · rw [List.getElem?_append_right (Nat.le_refl _), Nat.sub_self, List.getElem?_cons_zero]

/-- Every output was emitted by an allowed step from a state reached before it;
what had been emitted until then is what precedes the output. -/
theorem Reach.emitted {t : List ο} {s' : σ} (h : M.Reach ok s t s')
    {before after : List ο} {o : ο} (ho : t = before ++ o :: after) :
    ∃ t₀ s₀ i pre post, M.Reach ok s t₀ s₀ ∧ ok t₀ s₀ i ∧
      (M.step s₀ i).2 = pre ++ o :: post ∧ before = t₀ ++ pre := by
  induction h generalizing before after with
  | refl => simp at ho
  | @step t₁ s₁ i h hok ih =>
      rcases split_of_append ho with ⟨w, hold, -⟩ | ⟨w, hbefore, hout⟩
      · exact ih hold
      · exact ⟨t₁, s₁, i, w, after, h, hok, hout, hbefore⟩

theorem Reach.emitted_of_mem {t : List ο} {s' : σ} (h : M.Reach ok s t s')
    {o : ο} (ho : o ∈ t) :
    ∃ t₀ s₀ i, M.Reach ok s t₀ s₀ ∧ ok t₀ s₀ i ∧ o ∈ (M.step s₀ i).2 := by
  obtain ⟨before, after, hsplit⟩ := List.append_of_mem ho
  obtain ⟨t₀, s₀, i, pre, post, hreach, hok, hout, -⟩ := h.emitted hsplit
  exact ⟨t₀, s₀, i, hreach, hok, by simp [hout]⟩

/-! ## Checking rules -/

/-- A condition on the members of a list is checked member by member, even where
their type is finite. -/
instance (priority := 2000) decidableForallMemList {α : Type*} (p : α → Prop)
    [DecidablePred p] (l : List α) : Decidable (∀ x ∈ l, p x) :=
  List.decidableBAll p l

instance (priority := 2000) decidableForallMemOption {α : Type*} (p : α → Prop)
    [DecidablePred p] (o : Option α) : Decidable (∀ x ∈ o, p x) :=
  Option.decidableForallMem o

variable (M ok)

/-- The inputs `is` are allowed one after the other, from `s` with past `t`. -/
def Admissible (t : List ο) (s : σ) : List ι → Prop
  | [] => True
  | i :: is => ok t s i ∧
      Admissible (t ++ (M.step s i).2) (M.step s i).1 is

instance decidableAdmissible [∀ t s i, Decidable (ok t s i)] :
    (t : List ο) → (s : σ) → (is : List ι) → Decidable (M.Admissible ok t s is)
  | _, _, [] => inferInstanceAs (Decidable True)
  | t, s, i :: is =>
      have := decidableAdmissible (t ++ (M.step s i).2) (M.step s i).1 is
      inferInstanceAs (Decidable (_ ∧ _))

variable {M ok}

theorem Reach.run {t : List ο} {s' : σ} (h : M.Reach ok s t s') (is : List ι)
    (his : M.Admissible ok t s' is) :
    M.Reach ok s (t ++ M.trace s' is) (M.run s' is) := by
  induction is generalizing t s' with
  | nil => simpa using h
  | cons i is ih =>
      obtain ⟨hi, his⟩ := his
      simpa using ih (h.step i hi) his

/-- Allowed inputs lead to a reachable state. -/
theorem reach_run (is : List ι) (his : M.Admissible ok [] s is) :
    M.Reach ok s (M.trace s is) (M.run s is) := by
  simpa using Reach.refl.run is his

/-- If a step keeps a property exactly when it is allowed, a list of inputs keeps it
all along exactly when its inputs are allowed one after the other. -/
theorem forall_run_take_iff {P : σ → Prop} {is : List ι}
    (hstep : ∀ t s, ∀ i ∈ is, P s → (P (M.step s i).1 ↔ ok t s i)) (t : List ο)
    (hs : P s) :
    (∀ n, P (M.run s (is.take n))) ↔ M.Admissible ok t s is := by
  induction is generalizing t s with
  | nil =>
      constructor
      · intro _
        exact trivial
      · intro _ n
        rw [List.take_nil]
        exact hs
  | cons i is ih =>
      obtain ⟨hhead, htail⟩ := List.forall_mem_cons.mp fun i hi t s => hstep t s i hi
      have ih {t : List ο} {s : σ} (hs : P s) :=
        ih (fun t s i hi => htail i hi t s) t hs
      constructor
      · intro h
        have hnext : P (M.step s i).1 := h 1
        refine ⟨(hhead t s hs).mp hnext, (ih hnext).mp ?_⟩
        intro n
        exact h (n + 1)
      · rintro ⟨hok, hrest⟩ n
        have hnext : P (M.step s i).1 := (hhead t s hs).mpr hok
        cases n with
        | zero => exact hs
        | succ n => exact (ih hnext).mpr hrest n

/-- A property that every allowed step keeps holds at the end of allowed inputs. -/
theorem Admissible.invariant {P : σ → Prop}
    (hstep : ∀ t s i, P s → ok t s i → P (M.step s i).1) {t : List ο}
    {is : List ι} (his : M.Admissible ok t s is) (hs : P s) : P (M.run s is) := by
  induction is generalizing t s with
  | nil => exact hs
  | cons i is ih =>
      obtain ⟨hi, his⟩ := his
      exact ih his (hstep t s i hs hi)

/-- If every allowed step keeps `P` and, from `P`, only emits outputs with `Q`, then
allowed inputs only make the machine emit outputs with `Q`. -/
theorem Admissible.forall_mem_trace {P : σ → Prop} {Q : ο → Prop} {is : List ι}
    (hstep : ∀ t s, ∀ i ∈ is, P s → ok t s i →
      P (M.step s i).1 ∧ ∀ o ∈ (M.step s i).2, Q o) {t : List ο}
    (his : M.Admissible ok t s is) (hs : P s) : ∀ o ∈ M.trace s is, Q o := by
  induction is generalizing t s with
  | nil => exact List.forall_mem_nil _
  | cons i is ih =>
      obtain ⟨hi, his⟩ := his
      obtain ⟨hnext, hout⟩ := hstep t s i List.mem_cons_self hs hi
      intro o ho
      rcases List.mem_append.mp ho with ho | ho
      · exact hout o ho
      · refine ih ?_ his hnext o ho
        intro t s i hmem
        exact hstep t s i (List.mem_cons_of_mem _ hmem)

theorem run_append (s : σ) (is js : List ι) :
    M.run s (is ++ js) = M.run (M.run s is) js := by
  induction is generalizing s with
  | nil => rfl
  | cons i is ih => exact ih (M.step s i).1

theorem trace_append (s : σ) (is js : List ι) :
    M.trace s (is ++ js) = M.trace s is ++ M.trace (M.run s is) js := by
  induction is generalizing s with
  | nil => rfl
  | cons i is ih =>
      rw [List.cons_append, trace_cons, ih, trace_cons, List.append_assoc]
      rfl

/-- A property of states and their past that every step keeps holds at the end of a run. -/
theorem past_run {P : List ο → σ → Prop} {s : σ}
    (hstep : ∀ t s i, P t s → P (t ++ (M.step s i).2) (M.step s i).1) (h : P [] s)
    (is : List ι) : P (M.trace s is) (M.run s is) := by
  suffices hpast : ∀ t s, P t s → P (t ++ M.trace s is) (M.run s is) from hpast [] s h
  induction is with
  | nil =>
      intro t s h
      rwa [trace_nil, List.append_nil]
  | cons i is ih =>
      intro t s h
      rw [trace_cons, run_cons, ← List.append_assoc]
      exact ih _ _ (hstep t s i h)

/-- The outputs of a run are those of its steps. -/
theorem mem_trace_iff {s : σ} {is : List ι} {o : ο} :
    o ∈ M.trace s is ↔ ∃ before i after, is = before ++ i :: after ∧
      o ∈ (M.step (M.run s before) i).2 := by
  induction is generalizing s with
  | nil => simp
  | cons i is ih =>
      rw [trace_cons, List.mem_append, ih]
      constructor
      · rintro (ho | ⟨before, j, after, rfl, ho⟩)
        · exact ⟨[], i, is, rfl, ho⟩
        · exact ⟨i :: before, j, after, rfl, ho⟩
      · rintro ⟨before, j, after, his, ho⟩
        cases before with
        | nil =>
            obtain ⟨rfl, rfl⟩ := List.cons.inj his
            exact Or.inl ho
        | cons i' before =>
            obtain ⟨rfl, rfl⟩ := List.cons.inj his
            exact Or.inr ⟨before, j, after, rfl, ho⟩

/-- The inputs `is` lead from `s` to `s'` and make the machine emit `os`. -/
structure Runs (M : Machine σ ι ο) (s : σ) (is : List ι) (os : List ο) (s' : σ) :
    Prop where
  run : M.run s is = s'
  trace : M.trace s is = os

theorem Runs.nil (s : σ) : M.Runs s [] [] s :=
  ⟨rfl, rfl⟩

theorem Runs.single (s : σ) (i : ι) : M.Runs s [i] (M.step s i).2 (M.step s i).1 :=
  ⟨rfl, List.append_nil _⟩

theorem Runs.append {s s' s'' : σ} {is js : List ι} {os ps : List ο}
    (h : M.Runs s is os s') (h' : M.Runs s' js ps s'') :
    M.Runs s (is ++ js) (os ++ ps) s'' := by
  refine ⟨?_, ?_⟩
  · rw [run_append, h.run, h'.run]
  · rw [trace_append, h.run, h.trace, h'.trace]

theorem Runs.cons {s s₁ s' : σ} {i : ι} {is : List ι} {os ps : List ο}
    (hstep : M.step s i = (s₁, os)) (h : M.Runs s₁ is ps s') :
    M.Runs s (i :: is) (os ++ ps) s' := by
  have hsingle := Runs.single (M := M) s i
  rw [hstep] at hsingle
  exact hsingle.append h

/-! ## Turns -/

/-- The turns that are left after an input of the kind `k`: the next one is taken only by
an input of its kind. -/
def afterTurn {τ : Type*} [DecidableEq τ] (k : τ) : List τ → List τ
  | [] => []
  | t :: ts => if k = t then ts else t :: ts

/-- If every allowed input keeps a property of the turns that are left, the past and the
state, then it holds with no turn left once the turns have come in their order, whatever
came between them. -/
theorem past_turns {τ : Type*} [DecidableEq τ] (kind : ι → τ)
    {P : List τ → List ο → σ → Prop} {is : List ι}
    (hstep : ∀ ts t s, ∀ i ∈ is, P ts t s →
      P (afterTurn (kind i) ts) (t ++ (M.step s i).2) (M.step s i).1)
    {ts : List τ} {t : List ο} {s : σ} (h : P ts t s) (hturns : ts.Sublist (is.map kind)) :
    P [] (t ++ M.trace s is) (M.run s is) := by
  induction is generalizing ts t s with
  | nil =>
      obtain rfl := List.sublist_nil.mp hturns
      rwa [trace_nil, List.append_nil]
  | cons i is ih =>
      have hleft : (afterTurn (kind i) ts).Sublist (is.map kind) := by
        cases ts with
        | nil => exact List.nil_sublist _
        | cons k ts =>
            rw [afterTurn]
            split
            · exact hturns.of_cons_cons
            · next hne =>
                cases hturns with
                | cons _ h => exact h
                | cons_cons _ _ => exact absurd rfl hne
      have hnext := hstep ts t s i List.mem_cons_self h
      rw [trace_cons, run_cons, ← List.append_assoc]
      exact ih (fun ts t s i hi => hstep ts t s i (List.mem_cons_of_mem _ hi)) hnext hleft

/-! ## Registers -/

/-- A part of the state that each step sets or leaves alone holds what was set
last. -/
theorem register_run {α : Type*} (reg : σ → α) {set : ι → Option α}
    (hstep : ∀ s i, reg (M.step s i).1 = (set i).getD (reg s)) (s : σ) (is : List ι) :
    reg (M.run s is) = (is.filterMap set).getLast?.getD (reg s) := by
  induction is generalizing s with
  | nil => rfl
  | cons i is ih =>
      rw [run_cons, ih, hstep]
      cases hset : set i with
      | none => rw [List.filterMap_cons_none hset, Option.getD_none]
      | some a =>
          rw [List.filterMap_cons_some hset, List.getLast?_cons, Option.getD_some,
            Option.getD_some]

/-! ## Two machines side by side -/

/-- Each input goes to one of the two machines, in any interleaving. -/
def par {σ' ι' ο' : Type*} (M : Machine σ ι ο) (N : Machine σ' ι' ο') :
    Machine (σ × σ') (ι ⊕ ι') (ο ⊕ ο') where
  step s
    | .inl i => (((M.step s.1 i).1, s.2), (M.step s.1 i).2.map Sum.inl)
    | .inr i => ((s.1, (N.step s.2 i).1), (N.step s.2 i).2.map Sum.inr)

/-! ## Lockstep -/

/-- If related states emit the same on every input and stay related, they emit
the same on every list of inputs. -/
theorem trace_eq_of_lockstep {R : σ → σ → Prop}
    (hstep : ∀ s₁ s₂ i, R s₁ s₂ →
      (M.step s₁ i).2 = (M.step s₂ i).2 ∧ R (M.step s₁ i).1 (M.step s₂ i).1)
    {s₁ s₂ : σ} (h : R s₁ s₂) (is : List ι) :
    M.trace s₁ is = M.trace s₂ is := by
  induction is generalizing s₁ s₂ with
  | nil => rfl
  | cons i is ih =>
      obtain ⟨hout, hnext⟩ := hstep s₁ s₂ i h
      rw [trace_cons, trace_cons, hout, ih hnext]

/-! ## Abstraction -/

/-- If every step is, seen through `abs`, a step of another machine, so is every
run. -/
theorem abs_run {σ' ι' ο' : Type*} {N : Machine σ' ι' ο'} (abs : σ → σ')
    {label : ι → ι'}
    (hstep : ∀ s i, abs (M.step s i).1 = (N.step (abs s) (label i)).1) (s : σ)
    (is : List ι) : abs (M.run s is) = N.run (abs s) (is.map label) := by
  induction is generalizing s with
  | nil => rfl
  | cons i is ih =>
      rw [run_cons, ih, hstep]
      rfl

end Machine

end LifiAuth.Support
