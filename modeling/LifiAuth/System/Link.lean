import LifiAuth.Dash.Outputs
import LifiAuth.Pico.HandshakeSteps

/-!
# The two programs on one link

Sender and receiver side by side.  An adversary between them decides what each of
them gets to see: every input of either program may come at any time.
-/

namespace LifiAuth

open Support

variable (m : Mbedtls) (hse : HeatshrinkEncoder) (api : SstApi)

abbrev LinkIn := (PicoEnv × PicoEvent) ⊕ (DashEnv × DashEvent)
abbrev LinkOut := PicoOut ⊕ DashOut

def lifiLink : Machine (Pico × Dash) LinkIn LinkOut :=
  (lifiSender m hse).par (dashReceiver m api)

variable {m hse api} {s : Pico × Dash} {i : LinkIn}

theorem inl_mem_lifiLink {o : PicoOut}
    (h : .inl o ∈ ((lifiLink m hse api).step s i).2) :
    ∃ env ev, i = .inl (env, ev) ∧ o ∈ (picoStep m hse s.1 env ev).2 := by
  rcases i with ⟨env, ev⟩ | ⟨env, ev⟩
  · obtain ⟨o', ho', heq⟩ := List.mem_map.mp h
    exact ⟨env, ev, rfl, Sum.inl.inj heq ▸ ho'⟩
  · obtain ⟨o', -, heq⟩ := List.mem_map.mp h
    cases heq

theorem inr_mem_lifiLink {o : DashOut}
    (h : .inr o ∈ ((lifiLink m hse api).step s i).2) :
    ∃ env ev, i = .inr (env, ev) ∧ o ∈ (dashStep m api s.2 env ev).2 := by
  rcases i with ⟨env, ev⟩ | ⟨env, ev⟩
  · obtain ⟨o', -, heq⟩ := List.mem_map.mp h
    cases heq
  · obtain ⟨o', ho', heq⟩ := List.mem_map.mp h
    exact ⟨env, ev, rfl, Sum.inr.inj heq ▸ ho'⟩

/-- Outputs that a view of a trace leaves out. -/
theorem filterMap_map_eq_nil {α β γ : Type*} {f : β → Option γ} {g : α → β}
    {l : List α} (h : ∀ a ∈ l, f (g a) = none) : (l.map g).filterMap f = [] := by
  rw [List.filterMap_map, List.filterMap_eq_nil_iff]
  exact h

end LifiAuth
