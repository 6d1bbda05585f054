import LifiAuth.Support.Machine
import Mathlib.Data.List.Induction

/-!
# One-place mailboxes

A mailbox holds the value that was posted last until it is taken.  What posts, takes and
does neither is read off the outputs of a machine, so that one machine can have several
mailboxes.  `drops` says which values may be overwritten before they are taken.
-/

namespace LifiAuth.Support

/-- What an output means to a mailbox. -/
inductive Mail (α : Type*) where
  | post (a : α)
  | take
  | other

variable {ο α : Type*} (role : ο → Mail α) (uses : ο → α → Prop) (drops : α → Prop)

/-- Nothing is posted and nothing is taken. -/
def Quiet (t : List ο) : Prop :=
  ∀ o ∈ t, role o = .other

/-- What waits in the mailbox behind `t`. -/
def waiting (w : Option α) : List ο → Option α
  | [] => w
  | o :: t =>
      match role o with
      | .post a => waiting (some a) t
      | .take => waiting none t
      | .other => waiting w t

/-- Every take finds a value and makes the right use of it, and no value is overwritten
that may not be. -/
def Delivered (w : Option α) : List ο → Prop
  | [] => True
  | o :: t =>
      match role o with
      | .post a => (∀ a' ∈ w, drops a') ∧ Delivered (some a) t
      | .take => (∃ a, w = some a ∧ uses o a) ∧ Delivered none t
      | .other => Delivered w t

variable {role uses drops} {w : Option α}

theorem waiting_append (t u : List ο) :
    waiting role w (t ++ u) = waiting role (waiting role w t) u := by
  induction t generalizing w with
  | nil => rfl
  | cons o t ih =>
      rw [List.cons_append, waiting, waiting]
      split
      · exact ih
      · exact ih
      · exact ih

theorem waiting_quiet {t : List ο} (h : Quiet role t) : waiting role w t = w := by
  induction t with
  | nil => rfl
  | cons o t ih =>
      obtain ⟨ho, ht⟩ := List.forall_mem_cons.mp h
      rw [waiting, ho]
      exact ih ht

theorem delivered_append {t u : List ο} :
    Delivered role uses drops w (t ++ u) ↔ Delivered role uses drops w t ∧
      Delivered role uses drops (waiting role w t) u := by
  induction t generalizing w with
  | nil => simp [Delivered, waiting]
  | cons o t ih =>
      rw [List.cons_append, Delivered, Delivered, waiting]
      split
      · rw [ih, and_assoc]
      · rw [ih, and_assoc]
      · exact ih

/-! ## Reading traces -/

/-- The first output of a list that is not quiet. -/
theorem quiet_or_first (role : ο → Mail α) (t : List ο) :
    Quiet role t ∨ ∃ c o d, t = c ++ o :: d ∧ Quiet role c ∧ role o ≠ .other := by
  induction t with
  | nil => exact Or.inl (List.forall_mem_nil _)
  | cons o t ih =>
      by_cases ho : role o = .other
      · rcases ih with ht | ⟨c, o', d, rfl, hc, ho'⟩
        · exact Or.inl (List.forall_mem_cons.mpr ⟨ho, ht⟩)
        · exact Or.inr ⟨o :: c, o', d, rfl, List.forall_mem_cons.mpr ⟨ho, hc⟩, ho'⟩
      · exact Or.inr ⟨[], o, t, rfl, List.forall_mem_nil _, ho⟩

/-- What waits was posted, and nothing has happened since. -/
theorem exists_post_of_waiting {t : List ο} {a : α} (h : waiting role none t = some a) :
    ∃ b p c, t = b ++ p :: c ∧ role p = .post a ∧ Quiet role c := by
  induction t using List.reverseRecOn with
  | nil => cases h
  | append_singleton t o ih =>
      rw [waiting_append, waiting] at h
      split at h
      · next a' ho =>
          obtain rfl := Option.some.inj h
          exact ⟨t, o, [], rfl, ho, List.forall_mem_nil _⟩
      · cases h
      · next ho =>
          obtain ⟨b, p, c, rfl, hp, hc⟩ := ih h
          refine ⟨b, p, c ++ [o], by simp, hp, ?_⟩
          exact List.forall_mem_append.mpr ⟨hc, List.forall_mem_singleton.mpr ho⟩

variable {post : α → ο}

/-- What is taken is what was posted last. -/
theorem Delivered.taken (hpost : ∀ {p a}, role p = .post a → p = post a)
    {before after : List ο} {o : ο}
    (h : Delivered role uses drops none (before ++ o :: after)) (ho : role o = .take) :
    ∃ b a c, before = b ++ post a :: c ∧ Quiet role c ∧ uses o a := by
  obtain ⟨-, hrest⟩ := delivered_append.mp h
  rw [Delivered, ho] at hrest
  obtain ⟨⟨a, hwaiting, huses⟩, -⟩ := hrest
  obtain ⟨b, p, c, hbefore, hp, hc⟩ := exists_post_of_waiting hwaiting
  obtain rfl := hpost hp
  exact ⟨b, a, c, hbefore, hc, huses⟩

/-- What is posted is overwritten, taken or still there. -/
theorem Delivered.fate (hpost : ∀ {p a}, role p = .post a → p = post a)
    {before after : List ο} {o : ο} {a : α}
    (h : Delivered role uses drops w (before ++ o :: after)) (ho : role o = .post a) :
    (∃ c o' d, after = c ++ o' :: d ∧ Quiet role c ∧
      ((∃ a', o' = post a') ∧ drops a ∨ uses o' a)) ∨
    Quiet role after ∧ waiting role w (before ++ o :: after) = some a := by
  obtain ⟨-, hrest⟩ := delivered_append.mp h
  rw [Delivered, ho] at hrest
  rcases quiet_or_first role after with hquiet | ⟨c, o', d, rfl, hc, ho'⟩
  · refine Or.inr ⟨hquiet, ?_⟩
    rw [waiting_append, waiting, ho]
    exact waiting_quiet hquiet
  · obtain ⟨-, htail⟩ := delivered_append.mp hrest.2
    rw [waiting_quiet hc, Delivered] at htail
    refine Or.inl ⟨c, o', d, rfl, hc, ?_⟩
    split at htail
    · next a' hnext => exact Or.inl ⟨⟨a', hpost hnext⟩, htail.1 a rfl⟩
    · next htake =>
        obtain ⟨⟨a', heq, huses⟩, -⟩ := htail
        obtain rfl := Option.some.inj heq
        exact Or.inr huses
    · next hother => exact absurd hother ho'

/-! ## Machines with a mailbox -/

/-- If every step delivers, and what waits stays in the relation `H` to the state, so does
every run. -/
theorem delivered_run {σ ι : Type*} {M : Machine σ ι ο} {H : σ → Option α → Prop}
    (hstep : ∀ s i w, H s w → Delivered role uses drops w (M.step s i).2 ∧
      H (M.step s i).1 (waiting role w (M.step s i).2))
    {s : σ} (h : H s w) (is : List ι) :
    Delivered role uses drops w (M.trace s is) ∧
      H (M.run s is) (waiting role w (M.trace s is)) := by
  induction is generalizing s w with
  | nil => exact ⟨trivial, h⟩
  | cons i is ih =>
      obtain ⟨hout, hnext⟩ := hstep s i w h
      obtain ⟨hrest, hlast⟩ := ih hnext
      rw [Machine.trace_cons, Machine.run_cons, delivered_append, waiting_append]
      exact ⟨⟨hout, hrest⟩, hlast⟩

end LifiAuth.Support
