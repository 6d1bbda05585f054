import LifiAuth.Benchmark.Receiver
import LifiAuth.Benchmark.SentLog

/-!
# Results and the steps they belong to

Where messages of a benchmark are lost, the receiver's counters may be left over from an
earlier step.  A result is right where the start of its step has arrived at the rate of
the step; where the start is lost it is right only if what is left over happens to be
the same.
-/

namespace LifiAuth

open Support AutoTest

/-! ## What has been delivered -/

/-- The bytes of the messages that arrive. -/
def deliveredBytes (l : List Sent) : List UInt8 :=
  l.flatMap fun o => lifiMessage o.message.text

/-- The results that the receiver prints for a message. -/
def resultsOf (r : TestReceiver) (before : List Sent) (o : Sent) : List TestResult :=
  (testReceiver.trace (testReceiver.run r (deliveredBytes before))
    (lifiMessage o.message.text)).filterMap TestLine.result?

/-- A result answers the end of a step: it has the step's rate and count, and the number
of its packets that were delivered. -/
structure RightResult (n : UInt32) (bauds : List UInt32) (delivered : List Sent) (o : Sent)
    (res : TestResult) : Prop where
  answers : o.message.IsEnd
  baud : bauds[o.step]? = some res.baud
  sent : res.sent = n
  recv : res.recv.toNat = pktsOf o.step delivered
  recv_le : res.recv ≤ res.sent

/-- Every result printed is right. -/
def Attributed (n : UInt32) (bauds : List UInt32) (r : TestReceiver)
    (delivered : List Sent) : Prop :=
  ∀ before o after, delivered = before ++ o :: after →
    ∀ res ∈ resultsOf r before o, RightResult n bauds delivered o res

/-- The rate that a message announces, if the receiver accepts it. -/
def Sent.announces (o : Sent) : Option UInt32 :=
  match o.message with
  | .baud rate => if acceptsBaud rate then some rate else none
  | _ => none

/-- The last rate announced, which was `b` before. -/
def announcedRate (b : UInt32) (l : List Sent) : UInt32 :=
  (l.filterMap Sent.announces).getLast?.getD b

/-- The packets in front of the first end. -/
def pktsBeforeEnd (l : List Sent) : ℕ :=
  (l.takeWhile fun o => ¬ o.message.IsEnd).countP fun o => o.message.IsPkt

/-- What makes the result of step `s` right, when the messages in front of its end that
were delivered are `before`. -/
inductive Attributable (bauds : List UInt32) (r : TestReceiver) (delivered before : List Sent)
    (s : ℕ) : Prop where
  /-- The start of the step was delivered, and the last rate announced is that of the
  step. -/
  | own (hstart : ∃ o ∈ before, o.step = s ∧ o.message = .testStart)
      (hrate : announcedRate r.currentBaud before = rateOf bauds s)
  /-- It was lost, but at the start delivered last the rate was the same, and as many
  packets followed that start, up to an end, as were delivered of the step. -/
  | earlier (hlost : ¬ ∃ o ∈ before, o.step = s ∧ o.message = .testStart) {e : List Sent} {o : Sent}
      {f : List Sent} (hsplit : before = e ++ o :: f) (ho : o.message = .testStart)
      (hlast : ∀ o' ∈ f, o'.message ≠ .testStart)
      (hrate : announcedRate r.currentBaud e = rateOf bauds s)
      (hcount : UInt32.ofNat (pktsBeforeEnd f) = UInt32.ofNat (pktsOf s delivered))
  /-- No start was delivered, but the receiver was left in such a state before. -/
  | initial (hnone : ∀ o ∈ before, o.message ≠ .testStart) (hrate : r.testBaud = rateOf bauds s)
      (hcount : r.testRecv +
        (if r.testActive then UInt32.ofNat (pktsBeforeEnd before) else 0) =
          UInt32.ofNat (pktsOf s delivered))

/-! ## The counters -/

/-- The variables of the receiver and the messages delivered. -/
def testCounters : Machine TestCounters Sent TestResult where
  step c o := (c.receive o.message, (c.result o.message).toList)

theorem run_deliveredBytes {r : TestReceiver} (hr : r.Listening) (l : List Sent) :
    (testReceiver.run r (deliveredBytes l)).Listening ∧
      (testReceiver.run r (deliveredBytes l)).counters = testCounters.run r.counters l := by
  induction l generalizing r with
  | nil => exact ⟨hr, rfl⟩
  | cons o l ih =>
      obtain ⟨hlisten, hcounters, -⟩ := TestReceiver.receive_message hr o.message
      have hbytes : deliveredBytes (o :: l) =
          lifiMessage o.message.text ++ deliveredBytes l := List.flatMap_cons
      have hstep : (testCounters.step r.counters o).1 = r.counters.receive o.message := rfl
      rw [hbytes, Machine.run_append, Machine.run_cons, hstep, ← hcounters]
      exact ih hlisten

theorem resultsOf_eq {r : TestReceiver} (hr : r.Listening) (before : List Sent) (o : Sent) :
    resultsOf r before o =
      ((testCounters.run r.counters before).result o.message).toList := by
  obtain ⟨hlisten, hcounters⟩ := run_deliveredBytes hr before
  rw [resultsOf, ← hcounters]
  exact (TestReceiver.receive_message hlisten o.message).2.2

/-- The receiver is at the rate announced last. -/
theorem currentBaud_run (c : TestCounters) (l : List Sent) :
    (testCounters.run c l).currentBaud = announcedRate c.currentBaud l := by
  refine Machine.register_run TestCounters.currentBaud ?_ c l
  intro c o
  simp only [testCounters, TestCounters.receive, Sent.announces]
  cases o.message with
  | baud rate =>
      simp only
      split
      · rfl
      · rfl
  | pkt i =>
      simp only
      split
      · rfl
      · rfl
  | _ => rfl

/-- Without a start the counters go on as they were, until an end. -/
theorem run_of_no_start {c : TestCounters} {l : List Sent} (h : ∀ o ∈ l, o.message ≠ .testStart) :
    (testCounters.run c l).testBaud = c.testBaud ∧
      (testCounters.run c l).testRecv = c.testRecv +
        (if c.testActive then UInt32.ofNat (pktsBeforeEnd l) else 0) := by
  induction l generalizing c with
  | nil => simp [pktsBeforeEnd]
  | cons o l ih =>
      obtain ⟨hstart, hrest⟩ := List.forall_mem_cons.mp h
      obtain ⟨hbaud, hrecv⟩ := @ih (c.receive o.message) hrest
      have hstep : testCounters.run c (o :: l) = testCounters.run (c.receive o.message) l := rfl
      rw [hstep, hbaud, hrecv]
      -- What the first message does to the two variables, and to the count of packets.
      cases hm : o.message with
      | baud rate =>
          have hcount : pktsBeforeEnd (o :: l) = pktsBeforeEnd l := by
            simp [pktsBeforeEnd, hm, TestMessage.IsEnd, TestMessage.IsPkt]
          rw [hcount]
          simp only [TestCounters.receive]
          split
          · exact ⟨rfl, rfl⟩
          · exact ⟨rfl, rfl⟩
      | testStart => exact absurd hm hstart
      | pkt i =>
          have hcount : pktsBeforeEnd (o :: l) = pktsBeforeEnd l + 1 := by
            simp [pktsBeforeEnd, hm, TestMessage.IsEnd, TestMessage.IsPkt]
          rw [hcount]
          simp only [TestCounters.receive]
          split
          · refine ⟨rfl, ?_⟩
            change c.testRecv + 1 + _ = _
            rw [UInt32.ofNat_add, UInt32.add_assoc, UInt32.add_comm 1]
            rfl
          · exact ⟨rfl, rfl⟩
      | testEnd k =>
          have hcount : pktsBeforeEnd (o :: l) = 0 := by
            simp [pktsBeforeEnd, hm, TestMessage.IsEnd]
          simp [hcount, TestCounters.receive]
      | done =>
          have hcount : pktsBeforeEnd (o :: l) = pktsBeforeEnd l := by
            simp [pktsBeforeEnd, hm, TestMessage.IsEnd, TestMessage.IsPkt]
          rw [hcount]
          exact ⟨rfl, rfl⟩

/-- From a start on the counters only depend on what follows it, until an end. -/
theorem run_of_last_start (c : TestCounters) (e : List Sent) {o : Sent} {f : List Sent}
    (ho : o.message = .testStart) (hlast : ∀ o' ∈ f, o'.message ≠ .testStart) :
    (testCounters.run c (e ++ o :: f)).testBaud = announcedRate c.currentBaud e ∧
      (testCounters.run c (e ++ o :: f)).testRecv = UInt32.ofNat (pktsBeforeEnd f) := by
  have hstep : (testCounters.step (testCounters.run c e) o).1 =
      { testCounters.run c e with
        testActive := true, testRecv := 0, testBaud := (testCounters.run c e).currentBaud } := by
    simp [testCounters, TestCounters.receive, ho]
  obtain ⟨hbaud, hrecv⟩ := run_of_no_start (c := (testCounters.step (testCounters.run c e) o).1)
    hlast
  rw [Machine.run_append, Machine.run_cons, hbaud, hrecv, hstep]
  exact ⟨currentBaud_run c e, by simp⟩

/-! ## Order of the messages delivered -/

section

variable {delivered before after : List Sent} {o : Sent}
  (hordered : delivered.Pairwise Sent.Before)
  (hsplit : delivered = before ++ o :: after) (hend : o.message.IsEnd)
include hordered hsplit hend

/-- Behind the end of a step none of its packets come. -/
theorem pktsOf_delivered : pktsOf o.step delivered = pktsOf o.step before := by
  have hpairs := hordered
  rw [hsplit, List.pairwise_append, List.pairwise_cons] at hpairs
  have hrest : pktsOf o.step (o :: after) = 0 := by
    refine pktsOf_eq_zero ?_
    intro m hm hstep hpkt
    have hrank := TestMessage.rank_eq_two_iff.mpr hpkt
    have hthree := TestMessage.rank_of_isEnd hend
    rcases List.mem_cons.mp hm with rfl | hm
    · omega
    · have hbefore := (hpairs.2.1.1 m hm).rank_le hstep.symm
      omega
  rw [hsplit, pktsOf_append, hrest]
  rfl

/-- Between the start and the end of a step come its packets only, and all of them. -/
theorem packets_of_start {e : List Sent} {st : Sent} {f : List Sent}
    (hbefore : before = e ++ st :: f) (hstep : st.step = o.step)
    (hst : st.message = .testStart) :
    (∀ m ∈ f, m.message.IsPkt) ∧ pktsOf o.step delivered = f.length := by
  have hpairs := hordered
  rw [hsplit, hbefore, List.pairwise_append, List.pairwise_append, List.pairwise_cons] at hpairs
  obtain ⟨⟨-, ⟨hafter, -⟩, hfront⟩, -, hback⟩ := hpairs
  have hone : st.message.rank = 1 := by rw [hst]; rfl
  have hthree := TestMessage.rank_of_isEnd hend
  have hpackets : ∀ m ∈ f, m.step = o.step ∧ m.message.IsPkt := by
    intro m hm
    have hlow := hafter m hm
    have hhigh := hback m (List.mem_append_right e (List.mem_cons_of_mem st hm)) o
      List.mem_cons_self
    have hsame : m.step = o.step :=
      le_antisymm hhigh.step_le (hstep ▸ hlow.step_le)
    have hlow := hlow.rank_le (hstep.trans hsame.symm)
    have hhigh := hhigh.rank_le hsame
    exact ⟨hsame, TestMessage.rank_eq_two_iff.mp (by omega)⟩
  have hnone : pktsOf o.step e = 0 := by
    refine pktsOf_eq_zero ?_
    intro m hm hsame hpkt
    have hrank := TestMessage.rank_eq_two_iff.mpr hpkt
    have hlow := (hfront m hm st List.mem_cons_self).rank_le (hsame.trans hstep.symm)
    omega
  have hself : pktsOf o.step [st] = 0 := by
    refine pktsOf_singleton ?_ o.step
    rw [hst]
    exact id
  have hall : pktsOf o.step f = f.length := by
    rw [pktsOf, List.countP_eq_length]
    intro m hm
    simpa using hpackets m hm
  refine ⟨fun m hm => (hpackets m hm).2, ?_⟩
  rw [pktsOf_delivered hordered hsplit hend, hbefore, ← List.singleton_append, pktsOf_append,
    pktsOf_append, hnone, hself, hall]
  omega

end

/-- Packets announce nothing, and none of them is an end. -/
theorem announcedRate_append_start (b : UInt32) (e : List Sent) {st : Sent} {f : List Sent}
    (hst : st.message = .testStart) (hf : ∀ m ∈ f, m.message.IsPkt) :
    announcedRate b (e ++ st :: f) = announcedRate b e := by
  have hnone : (st :: f).filterMap Sent.announces = [] := by
    rw [List.filterMap_eq_nil_iff]
    intro m hm
    rcases List.mem_cons.mp hm with rfl | hm
    · simp [Sent.announces, hst]
    · have hpkt := hf m hm
      rw [Sent.announces]
      split
      · next rate hmsg =>
          rw [hmsg] at hpkt
          exact absurd hpkt id
      · rfl
  rw [announcedRate, List.filterMap_append, hnone, List.append_nil, announcedRate]

theorem pktsBeforeEnd_of_packets {f : List Sent} (hf : ∀ m ∈ f, m.message.IsPkt) :
    pktsBeforeEnd f = f.length := by
  have hnot : ∀ m ∈ f, ¬ m.message.IsEnd := by
    intro m hm hend
    have htwo := TestMessage.rank_eq_two_iff.mpr (hf m hm)
    have hthree := TestMessage.rank_of_isEnd hend
    omega
  have htake : (f.takeWhile fun o => ¬ o.message.IsEnd) = f :=
    List.takeWhile_eq_self_iff.mpr fun m hm => decide_eq_true (hnot m hm)
  rw [pktsBeforeEnd, htake, List.countP_eq_length]
  intro m hm
  exact decide_eq_true (hf m hm)

/-! ## The condition -/

/-- A list with a member has a last one. -/
theorem exists_last {α : Type*} {p : α → Prop} {l : List α} (h : ∃ x ∈ l, p x) :
    ∃ e x f, l = e ++ x :: f ∧ p x ∧ ∀ y ∈ f, ¬ p y := by
  induction l with
  | nil => simp at h
  | cons y l ih =>
      by_cases hl : ∃ x ∈ l, p x
      · obtain ⟨e, x, f, hsplit, hx, hf⟩ := ih hl
        exact ⟨y :: e, x, f, by rw [hsplit]; rfl, hx, hf⟩
      · obtain ⟨x, hx, hpx⟩ := h
        rcases List.mem_cons.mp hx with rfl | hx
        · exact ⟨[], x, l, rfl, hpx, fun z hz hpz => hl ⟨z, hz, hpz⟩⟩
        · exact absurd ⟨x, hx, hpx⟩ hl

/-- With the start of a step delivered its count is right in any case. -/
theorem counters_of_own_start (r : TestReceiver) {delivered before after : List Sent}
    {o st : Sent} (hordered : delivered.Pairwise Sent.Before)
    (hsplit : delivered = before ++ o :: after) (hend : o.message.IsEnd)
    (hmem : st ∈ before) (hstep : st.step = o.step) (hst : st.message = .testStart) :
    (testCounters.run r.counters before).testBaud = announcedRate r.currentBaud before ∧
      (testCounters.run r.counters before).testRecv =
        UInt32.ofNat (pktsOf o.step delivered) := by
  obtain ⟨e, f, hbefore⟩ := List.append_of_mem hmem
  obtain ⟨hf, hcount⟩ := packets_of_start hordered hsplit hend hbefore hstep hst
  have hlast : ∀ o' ∈ f, o'.message ≠ .testStart := by
    intro o' ho' hstart
    have hpkt := hf o' ho'
    rw [hstart] at hpkt
    exact hpkt
  obtain ⟨hbaud, hrecv⟩ := run_of_last_start r.counters e hst hlast
  rw [hbefore, hbaud, hrecv, hcount, pktsBeforeEnd_of_packets hf,
    announcedRate_append_start _ e hst hf]
  exact ⟨rfl, rfl⟩

/-- The condition says of the counters at the end of a step what its result needs. -/
theorem attributable_iff (bauds : List UInt32) (r : TestReceiver)
    {delivered before after : List Sent} {o : Sent}
    (hordered : delivered.Pairwise Sent.Before) (hsplit : delivered = before ++ o :: after)
    (hend : o.message.IsEnd) :
    Attributable bauds r delivered before o.step ↔
      (testCounters.run r.counters before).testBaud = rateOf bauds o.step ∧
        (testCounters.run r.counters before).testRecv =
          UInt32.ofNat (pktsOf o.step delivered) := by
  constructor
  · intro h
    cases h with
    | own hstart hrate =>
        obtain ⟨st, hmem, hstep, hst⟩ := hstart
        obtain ⟨hbaud, hrecv⟩ :=
          counters_of_own_start r hordered hsplit hend hmem hstep hst
        exact ⟨hbaud.trans hrate, hrecv⟩
    | earlier _ hbefore ho hlast hrate hcount =>
        obtain ⟨hbaud, hrecv⟩ := run_of_last_start r.counters _ ho hlast
        rw [hbefore]
        exact ⟨hbaud.trans hrate, hrecv.trans hcount⟩
    | initial hnone hrate hcount =>
        obtain ⟨hbaud, hrecv⟩ := run_of_no_start (c := r.counters) hnone
        exact ⟨hbaud.trans hrate, hrecv.trans hcount⟩
  · rintro ⟨hrate, hcount⟩
    by_cases hstart : ∃ st ∈ before, st.step = o.step ∧ st.message = .testStart
    · obtain ⟨st, hmem, hstep, hst⟩ := hstart
      have hown := counters_of_own_start r hordered hsplit hend hmem hstep hst
      exact .own ⟨st, hmem, hstep, hst⟩ (hown.1.symm.trans hrate)
    · by_cases hany : ∃ st ∈ before, st.message = .testStart
      · obtain ⟨e, st, f, hbefore, hst, hlast⟩ := exists_last hany
        obtain ⟨hbaud, hrecv⟩ := run_of_last_start r.counters e hst hlast
        rw [hbefore] at hrate hcount
        exact .earlier hstart hbefore hst hlast (hbaud.symm.trans hrate)
          (hrecv.symm.trans hcount)
      · have hnone : ∀ st ∈ before, st.message ≠ .testStart := fun st hmem hst =>
          hany ⟨st, hmem, hst⟩
        obtain ⟨hbaud, hrecv⟩ := run_of_no_start (c := r.counters) hnone
        exact .initial hnone (hbaud.symm.trans hrate) (hrecv.symm.trans hcount)

/-! ## Runs -/

theorem toNat_eq_iff {a : UInt32} {k : ℕ} (hk : k < 2 ^ 32) :
    a.toNat = k ↔ a = UInt32.ofNat k := by
  rw [← UInt32.toNat_inj, UInt32.toNat_ofNat', Nat.mod_eq_of_lt hk]

theorem rightResult_iff {n : UInt32} {bauds : List UInt32} {delivered : List Sent} {o : Sent}
    (hend : o.message = .testEnd n) (hlen : o.step < bauds.length)
    (hcount : pktsOf o.step delivered ≤ n.toNat) (baud recv : UInt32) :
    RightResult n bauds delivered o ⟨baud, n, recv⟩ ↔
      baud = rateOf bauds o.step ∧ recv = UInt32.ofNat (pktsOf o.step delivered) := by
  have hrate : bauds[o.step]? = some (rateOf bauds o.step) := by simp [rateOf, hlen]
  have hnat : recv.toNat = pktsOf o.step delivered ↔ _ :=
    toNat_eq_iff (Nat.lt_of_le_of_lt hcount n.toNat_lt)
  constructor
  · intro h
    have hbaud := h.baud
    rw [hrate] at hbaud
    exact ⟨(Option.some.inj hbaud).symm, hnat.mp h.recv⟩
  · rintro ⟨rfl, hrecv⟩
    refine ⟨by rw [hend]; trivial, hrate, rfl, hnat.mpr hrecv, ?_⟩
    rw [UInt32.le_iff_toNat_le, hnat.mpr hrecv]
    exact hcount

theorem resultsOf_raw {r : TestReceiver} (hraw : r.rawMode = true) (before : List Sent)
    (o : Sent) : resultsOf r before o = [] := by
  rw [resultsOf, (TestReceiver.runs_raw hraw _).run, (TestReceiver.runs_raw hraw _).trace,
    List.filterMap_map, List.filterMap_eq_nil_iff]
  intro b _
  rfl

/-- Whatever messages of a benchmark are lost, all results printed are right exactly if
each end delivered finds the counters of its step: its own start was delivered at its
rate, or what the receiver has instead happens to be the same. -/
theorem attribution_iff {n : UInt32} {bauds : List UInt32} {currentBaud : UInt32}
    {keys : List Bool} {delivered : List Sent}
    (hdelivered : delivered.Sublist (sentMessages n bauds currentBaud keys))
    {r : TestReceiver} (hr : r.state = .hunt) :
    Attributed n bauds r delivered ↔
      (r.rawMode = false → ∀ before o after, delivered = before ++ o :: after →
        o.message.IsEnd → Attributable bauds r delivered before o.step) := by
  have hlog := (sentMessages_logged n bauds currentBaud keys).log
  have hordered := hlog.ordered.sublist hdelivered
  cases hraw : r.rawMode with
  | true =>
      refine iff_of_true ?_ fun h => absurd h Bool.noConfusion
      intro before o after _ res hres
      rw [resultsOf_raw hraw] at hres
      cases hres
  | false =>
      have hiff {before after : List Sent} {o : Sent}
          (hsplit : delivered = before ++ o :: after) :
          (∀ res ∈ resultsOf r before o, RightResult n bauds delivered o res) ↔
            (o.message.IsEnd → Attributable bauds r delivered before o.step) := by
        rw [resultsOf_eq ⟨hr, hraw⟩]
        cases hm : o.message with
        | testEnd k =>
            have hmem : o ∈ delivered := by rw [hsplit]; simp
            obtain ⟨rfl, hlen, hcount⟩ := hlog.ends o (hdelivered.subset hmem) k hm
            have hle := (hdelivered.countP_le (p := fun o' =>
              o'.step = o.step ∧ o'.message.IsPkt)).trans hcount
            have hresult := rightResult_iff hm hlen hle
            have hattr := attributable_iff bauds r hordered hsplit
              (by rw [hm]; trivial)
            simp only [TestCounters.result, Option.mem_toList, Option.some.injEq,
              forall_eq', hresult, hattr]
            exact ⟨fun h _ => h, fun h => h trivial⟩
        | _ =>
            refine iff_of_true ?_ fun h => absurd h id
            intro res hres
            cases hres
      constructor
      · intro h _ before o after hsplit
        exact (hiff hsplit).mp (h before o after hsplit)
      · intro h before o after hsplit
        exact (hiff hsplit).mpr (h rfl before o after hsplit)

/-- Three steps with two packets each.  Of the first the announcement and a packet are
lost, of the last the announcement and the start. -/
def thinned : List Sent :=
  [⟨0, 9600, .testStart⟩, ⟨0, 9600, .pkt 2⟩, ⟨0, 9600, .testEnd 2⟩,
    ⟨1, 9600, .baud 100000⟩, ⟨1, 100000, .testStart⟩, ⟨1, 100000, .pkt 1⟩,
    ⟨1, 100000, .pkt 2⟩, ⟨1, 100000, .testEnd 2⟩,
    ⟨2, 100000, .pkt 1⟩, ⟨2, 100000, .pkt 2⟩, ⟨2, 100000, .testEnd 2⟩]

/-- The receiver is at 9600 already, and the last step has the rate and the count of the
one before. -/
theorem attribution_thinned :
    Attributed 2 [9600, 100000, 100000] TestReceiver.start thinned := by
  have hdelivered : thinned.Sublist
      (sentMessages 2 [9600, 100000, 100000] 9600 (List.replicate 700 false)) := by
    decide +kernel
  refine (attribution_iff hdelivered rfl).mpr ?_
  intro _ before o after hsplit hend
  obtain ⟨hlen, hbefore, ho⟩ := Machine.position_of_split hsplit
  have hends : ∀ k < 11, ∀ o ∈ thinned[k]?, o.message.IsEnd → k = 2 ∨ k = 7 ∨ k = 10 := by
    decide
  rcases hends before.length hlen o ho hend with hfirst | hsecond | hthird
  · rw [hfirst] at hbefore ho
    obtain rfl := Option.some.inj ho
    rw [hbefore]
    exact .own ⟨⟨0, 9600, .testStart⟩, by decide, rfl, rfl⟩ (by decide)
  · rw [hsecond] at hbefore ho
    obtain rfl := Option.some.inj ho
    rw [hbefore]
    exact .own ⟨⟨1, 100000, .testStart⟩, by decide, rfl, rfl⟩ (by decide)
  · rw [hthird] at hbefore ho
    obtain rfl := Option.some.inj ho
    have hstarted : thinned.take 10 = thinned.take 4 ++ ⟨1, 100000, .testStart⟩ ::
        (thinned.take 10).drop 5 := by decide
    rw [hbefore]
    exact .earlier (by decide) hstarted rfl (by decide) (by decide) (by decide)

/-- Steps at 9600 and 100000 with one packet each; the start of the second is lost. -/
def startLost : List Sent :=
  [⟨0, 9600, .baud 9600⟩, ⟨0, 9600, .testStart⟩, ⟨0, 9600, .pkt 1⟩, ⟨0, 9600, .testEnd 1⟩,
    ⟨1, 9600, .baud 100000⟩, ⟨1, 100000, .pkt 1⟩, ⟨1, 100000, .testEnd 1⟩]

/-- The result of the second step is reported at 9600. -/
theorem startLost_not_attributed :
    startLost.Sublist (sentMessages 1 [9600, 100000] 9600 (List.replicate 242 false)) ∧
      ¬ Attributed 1 [9600, 100000] TestReceiver.start startLost := by
  refine ⟨by decide +kernel, ?_⟩
  intro h
  have hright := h (startLost.take 6) ⟨1, 100000, .testEnd 1⟩ [] rfl ⟨9600, 1, 1⟩ (by
    rw [resultsOf_eq ⟨rfl, rfl⟩]
    decide)
  exact absurd hright.baud (by decide)

end LifiAuth
