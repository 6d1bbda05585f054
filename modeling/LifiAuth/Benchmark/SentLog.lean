import LifiAuth.Benchmark.AutoTest

/-!
# The order of the messages of a benchmark

Whatever the operator does, the messages go out step by step, and in a step the
announcement before the start, the start before the packets and those before the end.
A step that has come to its end has sent the number of packets that the end reports.
-/

namespace LifiAuth

open Support AutoTest

/-! ## Order -/

/-- The place of a message in its step. -/
def TestMessage.rank : TestMessage → ℕ
  | baud _ => 0
  | testStart => 1
  | pkt _ => 2
  | testEnd _ => 3
  | done => 4

theorem TestMessage.rank_eq_two_iff {m : TestMessage} : m.rank = 2 ↔ m.IsPkt := by
  cases m <;> simp [rank, IsPkt]

/-- One message goes out before the other; only packets share a place. -/
def Sent.Before (o o' : Sent) : Prop :=
  o.step < o'.step ∨ o.step = o'.step ∧
    (o.message.rank < o'.message.rank ∨ o.message.IsPkt ∧ o'.message.IsPkt)

theorem TestMessage.rank_of_isEnd {m : TestMessage} (h : m.IsEnd) : m.rank = 3 := by
  cases m with
  | testEnd k => rfl
  | _ => exact absurd h id

theorem Sent.Before.step_le {o o' : Sent} (h : o.Before o') : o.step ≤ o'.step := by
  rcases h with hlt | ⟨heq, -⟩
  · exact hlt.le
  · exact heq.le

/-- In one step the places are in order. -/
theorem Sent.Before.rank_le {o o' : Sent} (h : o.Before o') (hstep : o.step = o'.step) :
    o.message.rank < o'.message.rank ∨ o.message.rank = 2 ∧ o'.message.rank = 2 := by
  rcases h with hlt | ⟨-, hlt | ⟨hpkt, hpkt'⟩⟩
  · exact absurd hstep hlt.ne
  · exact Or.inl hlt
  · exact Or.inr ⟨TestMessage.rank_eq_two_iff.mpr hpkt, TestMessage.rank_eq_two_iff.mpr hpkt'⟩

/-- The number of packets of a step. -/
def pktsOf (s : ℕ) (l : List Sent) : ℕ :=
  l.countP fun o => o.step = s ∧ o.message.IsPkt

theorem pktsOf_append (s : ℕ) (l l' : List Sent) :
    pktsOf s (l ++ l') = pktsOf s l + pktsOf s l' :=
  List.countP_append

theorem pktsOf_eq_zero {s : ℕ} {l : List Sent}
    (h : ∀ o ∈ l, o.step = s → ¬ o.message.IsPkt) : pktsOf s l = 0 := by
  rw [pktsOf, List.countP_eq_zero]
  intro o ho
  simpa using h o ho

theorem pktsOf_singleton {o : Sent} (h : ¬ o.message.IsPkt) (s : ℕ) : pktsOf s [o] = 0 := by
  refine pktsOf_eq_zero ?_
  intro o' ho' _
  rw [List.mem_singleton.mp ho']
  exact h

/-! ## What has been sent -/

/-- The messages `t` have been sent, the last ones in step `s` and before place
`bound`. -/
structure SentLog (n : UInt32) (bauds : List UInt32) (t : List Sent) (s bound : ℕ) :
    Prop where
  ordered : t.Pairwise Sent.Before
  past : ∀ o ∈ t, o.step < s ∨ o.step = s ∧ o.message.rank < bound
  ends : ∀ o ∈ t, ∀ k, o.message = .testEnd k →
    k = n ∧ o.step < bauds.length ∧ pktsOf o.step t ≤ n.toNat

namespace SentLog

variable {n : UInt32} {bauds : List UInt32} {t : List Sent} {s bound : ℕ}

theorem mono (h : SentLog n bauds t s bound) {bound' : ℕ} (hle : bound ≤ bound') :
    SentLog n bauds t s bound' := by
  refine ⟨h.ordered, ?_, h.ends⟩
  intro o ho
  exact (h.past o ho).imp_right fun hsame => ⟨hsame.1, Nat.lt_of_lt_of_le hsame.2 hle⟩

/-- In a new step nothing has been sent. -/
theorem next (h : SentLog n bauds t s bound) : SentLog n bauds t (s + 1) 0 := by
  refine ⟨h.ordered, ?_, h.ends⟩
  intro o ho
  rcases h.past o ho with hlt | ⟨hsame, -⟩
  · exact Or.inl (by omega)
  · exact Or.inl (by omega)

/-- Before the packets of a step there are none. -/
theorem pktsOf_eq_zero (h : SentLog n bauds t s bound) (hbound : bound ≤ 2) :
    pktsOf s t = 0 := by
  refine LifiAuth.pktsOf_eq_zero ?_
  intro o ho hstep hpkt
  have hrank := TestMessage.rank_eq_two_iff.mpr hpkt
  rcases h.past o ho with hlt | ⟨-, hlt⟩
  · omega
  · omega

section

variable (h : SentLog n bauds t s bound) (rate : UInt32) {m : TestMessage}
  (hplace : bound ≤ m.rank ∨ m.IsPkt ∧ bound ≤ 3)
include h hplace

/-- A message at a later place, or a further packet, comes after what has been sent. -/
theorem before_new {o : Sent} (ho : o ∈ t) : o.Before ⟨s, rate, m⟩ := by
  rcases h.past o ho with hlt | ⟨hsame, hlt⟩
  · exact Or.inl hlt
  · refine Or.inr ⟨hsame, ?_⟩
    rcases hplace with hle | ⟨hpkt, hle⟩
    · exact Or.inl (Nat.lt_of_lt_of_le hlt hle)
    · have htwo := TestMessage.rank_eq_two_iff.mpr hpkt
      rcases Nat.lt_or_eq_of_le (show o.message.rank ≤ 2 by omega) with hlt | heq
      · exact Or.inl (by rw [htwo]; exact hlt)
      · exact Or.inr ⟨TestMessage.rank_eq_two_iff.mp heq, hpkt⟩

/-- It is no packet of a step that has ended. -/
theorem pktsOf_of_ended {o : Sent} (ho : o ∈ t) (hend : o.message.IsEnd) :
    pktsOf o.step [⟨s, rate, m⟩] = 0 := by
  refine LifiAuth.pktsOf_eq_zero ?_
  intro o' ho' hstep hpkt
  obtain rfl := List.mem_singleton.mp ho'
  have hrank := (h.before_new rate hplace ho).rank_le hstep.symm
  have htwo := TestMessage.rank_eq_two_iff.mpr hpkt
  have hthree := TestMessage.rank_of_isEnd hend
  omega

/-- One more message. -/
theorem concat (hend : ∀ k, m = .testEnd k →
      k = n ∧ s < bauds.length ∧ pktsOf s t ≤ n.toNat) :
    SentLog n bauds (t ++ [⟨s, rate, m⟩]) s (m.rank + 1) := by
  refine ⟨?_, ?_, ?_⟩
  · refine List.pairwise_append.mpr ⟨h.ordered, List.pairwise_singleton _ _, ?_⟩
    intro o ho o' ho'
    rw [List.mem_singleton.mp ho']
    exact h.before_new rate hplace ho
  · intro o ho
    rcases List.mem_append.mp ho with ho | ho
    · have hbefore := h.before_new rate hplace ho
      rcases Nat.lt_or_eq_of_le hbefore.step_le with hlt | hsame
      · exact Or.inl hlt
      · have hrank : o.message.rank < m.rank ∨ o.message.rank = 2 ∧ m.rank = 2 :=
          hbefore.rank_le hsame
        exact Or.inr ⟨hsame, show o.message.rank < m.rank + 1 by omega⟩
    · rw [List.mem_singleton.mp ho]
      exact Or.inr ⟨rfl, Nat.lt_succ_self _⟩
  · intro o ho k hk
    rw [pktsOf_append]
    rcases List.mem_append.mp ho with ho | ho
    · rw [h.pktsOf_of_ended rate hplace ho (by rw [hk]; trivial)]
      exact h.ends o ho k hk
    · obtain rfl := List.mem_singleton.mp ho
      obtain rfl : m = .testEnd k := hk
      rw [pktsOf_singleton id]
      exact hend k rfl

end

end SentLog

/-! ## One step -/

/-- The first place in its step that a message to come can have. -/
def TestPhase.bound : TestPhase → ℕ
  | waiting .announced _ | waiting .settling _ | waiting .resetting _ => 1
  | packets _ => 3
  | waiting .ended _ => 4
  | draining | returned => 5

theorem TestPhase.bound_le (p : TestPhase) : p.bound ≤ 5 := by
  cases p with
  | waiting w done => cases w <;> simp [bound]
  | _ => simp [bound]

/-- The packets sent in a step, as far as the sender's variables tell. -/
def AutoTest.Counts (n : UInt32) (bauds : List UInt32) (t : List Sent) (a : AutoTest) : Prop :=
  match a.phase with
  | .waiting .announced _ | .waiting .settling _ => a.s < bauds.length
  | .packets i => a.s < bauds.length ∧ i ≤ n ∧
      (n.toNat + 1 < 2 ^ 32 → pktsOf a.s t + 1 = i.toNat)
  | .waiting .ended _ | .waiting .resetting _ | .draining | .returned => True

/-- The messages sent until the next look at the keyboard. -/
structure Logged (n : UInt32) (bauds : List UInt32) (t : List Sent) (a : AutoTest) : Prop where
  log : SentLog n bauds t a.s a.phase.bound
  counts : a.Counts n bauds t

namespace Logged

variable {n : UInt32} {bauds : List UInt32} {t : List Sent}

/-- A step begins with its announcement. -/
theorem enterStep {s : ℕ} (h : SentLog n bauds t s 0) (currentBaud : UInt32) :
    Logged n bauds (t ++ (AutoTest.enterStep bauds s currentBaud).2)
      (AutoTest.enterStep bauds s currentBaud).1 := by
  have hlog := h.concat currentBaud (m := .baud (rateOf bauds s)) (Or.inl (Nat.zero_le _))
    (fun k => TestMessage.noConfusion)
  rcases enterStep_cases bauds s currentBaud with ⟨hlt, hs⟩ | ⟨-, hs⟩
  · rw [hs]
    exact ⟨hlog, hlt⟩
  · rw [hs]
    exact ⟨hlog, trivial⟩

/-- With the packets before `i` sent the next one is due, or the end. -/
theorem enterPacket {a : AutoTest} {i : UInt32} (h : SentLog n bauds t a.s 3)
    (hlen : a.s < bauds.length)
    (hcount : n.toNat + 1 < 2 ^ 32 → pktsOf a.s t + 1 = i.toNat ∧ i.toNat ≤ n.toNat + 1) :
    Logged n bauds (t ++ (AutoTest.enterPacket n a i).2) (AutoTest.enterPacket n a i).1 := by
  rcases enterPacket_cases n a i with ⟨hi, ha⟩ | ⟨hi, ha⟩
  · rw [ha, List.append_nil]
    exact ⟨h, hlen, hi, fun hn => (hcount hn).1⟩
  · rw [ha]
    have hlt : n.toNat + 1 < 2 ^ 32 := Nat.lt_of_le_of_lt hi i.toNat_lt
    obtain ⟨hpkts, hle⟩ := hcount hlt
    have hlog := h.concat a.currentBaud (m := .testEnd n) (Or.inl le_rfl) fun k hk =>
      ⟨(TestMessage.testEnd.inj hk).symm, hlen, by omega⟩
    exact ⟨hlog, trivial⟩

theorem poll {a : AutoTest} (h : Logged n bauds t a) (key : Bool) :
    Logged n bauds (t ++ (AutoTest.poll n bauds a key).2) (AutoTest.poll n bauds a key).1 := by
  obtain ⟨hlog, hcounts⟩ := h
  have hpolled := polled n bauds a key
  generalize AutoTest.poll n bauds a key = y at hpolled
  cases hpolled with
  | abort hrun =>
      rw [List.append_nil]
      exact ⟨hlog.mono a.phase.bound_le, trivial⟩
  | @wait w done hphase =>
      rw [List.append_nil]
      rw [hphase] at hlog
      rw [AutoTest.Counts, hphase] at hcounts
      cases w <;> exact ⟨hlog, hcounts⟩
  | announced hphase =>
      rw [List.append_nil]
      rw [hphase] at hlog
      rw [AutoTest.Counts, hphase] at hcounts
      exact ⟨hlog, hcounts⟩
  | settling hphase =>
      rw [hphase] at hlog
      rw [AutoTest.Counts, hphase] at hcounts
      have hstart := hlog.concat a.currentBaud (m := .testStart) (Or.inl le_rfl)
        (fun k => TestMessage.noConfusion)
      rw [← List.singleton_append, ← List.append_assoc]
      refine enterPacket (hstart.mono (by decide)) hcounts fun _ => ⟨?_, ?_⟩
      · rw [hstart.pktsOf_eq_zero le_rfl]
        rfl
      · exact Nat.le_add_left _ _
  | ended hphase => exact enterStep hlog.next a.currentBaud
  | resetting hphase =>
      rw [hphase] at hlog
      have hplace : 1 ≤ TestMessage.done.rank := by decide
      have hdone := hlog.concat 9600 (m := .done) (Or.inl hplace)
        (fun k => TestMessage.noConfusion)
      exact ⟨hdone, trivial⟩
  | @packet i hphase =>
      rw [hphase] at hlog
      rw [AutoTest.Counts, hphase] at hcounts
      obtain ⟨hlen, hi, hcount⟩ := hcounts
      have hpkt := hlog.concat a.currentBaud (m := .pkt i) (Or.inr ⟨trivial, le_rfl⟩)
        (fun k => TestMessage.noConfusion)
      rw [← List.singleton_append, ← List.append_assoc]
      refine enterPacket hpkt hlen fun hn => ?_
      have hle : i.toNat ≤ n.toNat := hi
      have hnext : (i + 1).toNat = i.toNat + 1 := by
        rw [UInt32.toNat_add]
        exact Nat.mod_eq_of_lt (by simp; omega)
      have hone : pktsOf a.s [⟨a.s, a.currentBaud, .pkt i⟩] = 1 := by
        simp [pktsOf, TestMessage.IsPkt]
      rw [pktsOf_append, hone, hnext, hcount hn]
      omega
  | stop hphase =>
      rw [List.append_nil]
      exact ⟨hlog.mono a.phase.bound_le, trivial⟩
  | drain | idle =>
      rw [List.append_nil]
      exact ⟨hlog, hcounts⟩

end Logged

/-- What is sent in a run is in order, and every step that ends was complete. -/
theorem sentMessages_logged (n : UInt32) (bauds : List UInt32) (currentBaud : UInt32)
    (keys : List Bool) :
    Logged n bauds (sentMessages n bauds currentBaud keys)
      ((autoTest n bauds).run (AutoTest.start bauds currentBaud) keys) := by
  have hempty : SentLog n bauds [] 0 0 :=
    ⟨List.Pairwise.nil, List.forall_mem_nil _, List.forall_mem_nil _⟩
  have hstart := Logged.enterStep hempty currentBaud
  refine Machine.past_run (M := autoTest n bauds)
    (P := fun t a => Logged n bauds ((enterStep bauds 0 currentBaud).2 ++ t) a) ?_ ?_ keys
  · intro t a key h
    rw [← List.append_assoc]
    exact h.poll key
  · rw [List.append_nil]
    exact hstart

end LifiAuth
