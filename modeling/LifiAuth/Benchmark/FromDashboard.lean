import LifiAuth.Benchmark.ResultLines

/-!
# A benchmark from the dashboard

The dashboard writes the number of packets and the rates of a benchmark into a `test`
command, and the sender reads them back.  So a benchmark that the dashboard starts comes
back to it as one result for each of its rates.
-/

namespace LifiAuth

open Support

/-! ## The command -/

/-- The rates as the page passes them on, with commas. -/
def ratesText (bauds : List UInt32) : List UInt8 :=
  List.intercalate [44] (bauds.map fun b => decimal b.toNat)

/-- The command of `handle_run_benchmark`. -/
def benchmarkText (n : ℕ) (baudsStr : List UInt8) : List UInt8 :=
  if baudsStr ≠ [] then ascii "test " ++ decimal n ++ (32 :: baudsStr)
  else ascii "test " ++ decimal n

theorem ratesText_cons (b : UInt32) (bauds : List UInt32) :
    ratesText (b :: bauds) =
      decimal b.toNat ++ if bauds = [] then [] else 44 :: ratesText bauds := by
  cases bauds with
  | nil => simp [ratesText]
  | cons b' bauds => simp [ratesText, List.intercalate]

theorem ratesText_eq_nil_iff {bauds : List UInt32} : ratesText bauds = [] ↔ bauds = [] := by
  cases bauds with
  | nil => simp [ratesText]
  | cons b bauds =>
      rw [ratesText_cons]
      simp [decimal_ne_nil]

/-! ## What the sender reads -/

section

variable {line : CommandLine}

variable (line) in
/-- A round of the loop takes one rate. -/
theorem body_ratesText {s : RateScan} {b : UInt32} {bauds : List UInt32}
    (hp : s.p = ratesText (b :: bauds)) :
    ((rateLoop line).body s).p = ratesText bauds ∧
      ((rateLoop line).body s).customBauds =
        s.customBauds ++ if acceptsBaud b then [b] else [] := by
  have hend : ∀ c ∈ (if bauds = [] then [] else 44 :: ratesText bauds).head?,
      isDigit c = false := by
    split
    · simp
    · rintro c ⟨⟩
      decide
  have hvalue : strtoul s.p = b := by
    rw [hp, ratesText_cons]
    exact strtoul_decimal b hend
  have hread : strtoulEnd s.p = (decimal b.toNat).length := by
    rw [hp, ratesText_cons]
    exact (isNumeral_decimal b.toNat).strtoulEnd_append hend
  have hrest : s.p.drop (strtoulEnd s.p) =
      if bauds = [] then [] else 44 :: ratesText bauds := by
    rw [hread, hp, ratesText_cons, List.drop_left]
  simp only [rateLoop, hvalue, hrest]
  constructor
  · cases bauds with
    | nil => rfl
    | cons b' bauds =>
        rw [if_neg (List.cons_ne_nil _ _)]
        exact if_pos rfl
  · split
    · rfl
    · rw [List.append_nil]

variable (line) in
/-- The loop reads the accepted rates, up to 32 of them. -/
theorem run_ratesText {s : RateScan} {bauds : List UInt32} (hp : s.p = ratesText bauds)
    (hs : s.customBauds.length ≤ 32) :
    ∃ fuel r, (rateLoop line).run fuel s = some r ∧
      r.customBauds = (s.customBauds ++ bauds.filter acceptsBaud).take 32 := by
  induction bauds generalizing s with
  | nil =>
      have htest : (rateLoop line).test s = false :=
        Bool.eq_false_iff.mpr fun h => (rateLoop_test.mp h).1 hp
      refine ⟨1, s, if_neg (by simp [htest]), ?_⟩
      rw [List.filter_nil, List.append_nil, List.take_of_length_le hs]
  | cons b bauds ih =>
      rcases Nat.lt_or_ge s.customBauds.length 32 with hlt | hge
      · have hne : s.p ≠ [] := by
          rw [hp, Ne, ratesText_eq_nil_iff]
          exact List.cons_ne_nil b bauds
        have htest : (rateLoop line).test s = true := rateLoop_test.mpr ⟨hne, hlt⟩
        obtain ⟨hnext, hstored⟩ := body_ratesText line hp
        obtain ⟨fuel, r, hr, hcustom⟩ := ih hnext (by
          rw [hstored, List.length_append]
          split <;> simp <;> omega)
        refine ⟨fuel + 1, r, (if_pos htest).trans hr, ?_⟩
        rw [hcustom, hstored, List.append_assoc, List.filter_cons]
        split
        · rfl
        · rfl
      · -- The array is full, and the loop looks at nothing more.
        have hfull : s.customBauds.length = 32 := Nat.le_antisymm hs hge
        have htest : (rateLoop line).test s = false :=
          Bool.eq_false_iff.mpr fun h => absurd (rateLoop_test.mp h).2 (by omega)
        refine ⟨1, s, if_neg (by simp [htest]), ?_⟩
        rw [← hfull, List.take_left]

/-- The command of the dashboard calls the benchmark with its number and its rates. -/
theorem testCommand_benchmarkText {n : ℕ} (hpos : 0 < n) (hn : n ≤ 10000)
    {bauds : List UInt32} (htext : line.text = benchmarkText n (ratesText bauds)) :
    ∃ fuel accesses, testCommand line fuel =
      some ⟨UInt32.ofNat n, (bauds.filter acceptsBaud).take 32, accesses⟩ := by
  -- What follows the number: a blank and the rates, if there are any.
  obtain ⟨rest, hrest, htail⟩ : ∃ rest, line.text = ascii "test " ++ (decimal n ++ rest) ∧
      rest = if bauds = [] then [] else 32 :: ratesText bauds := by
    refine ⟨_, ?_, rfl⟩
    rw [htext, benchmarkText]
    by_cases hbauds : bauds = []
    · simp [hbauds, ratesText]
    · simp [hbauds, ratesText_eq_nil_iff]
  have hend : ∀ c ∈ rest.head?, isDigit c = false := by
    rw [htail]
    split
    · simp
    · rintro c ⟨⟩
      decide
  have hnat : (UInt32.ofNat n).toNat = n := by
    rw [UInt32.toNat_ofNat']
    exact Nat.mod_eq_of_lt (by omega)
  have hvalue : strtoul (decimal n ++ rest) = UInt32.ofNat n := by
    have h := strtoul_decimal (UInt32.ofNat n) hend
    rwa [hnat] at h
  have hread : (decimal n ++ rest).drop (strtoulEnd (decimal n ++ rest)) = rest := by
    rw [(isNumeral_decimal n).strtoulEnd_append hend, List.drop_left]
  have hcount : packetCount (UInt32.ofNat n) = UInt32.ofNat n := by
    rw [packetCount, if_neg]
    rintro (hzero | hlarge)
    · rw [hzero] at hnat
      exact absurd hnat (by simp; omega)
    · have hlt : 10000 < (UInt32.ofNat n).toNat := hlarge
      omega
  have hblank : (line.text.drop 4).head? = some 32 := by rw [hrest]; rfl
  have hnumber : (line.text.drop 4).tail = decimal n ++ rest := by rw [hrest]; rfl
  simp only [testCommand, if_pos hblank, hnumber, hvalue, hread, hcount]
  by_cases hbauds : bauds = []
  · subst hbauds
    exact ⟨0, _, by rw [htail]; rfl⟩
  · have hloop : rest.head? = some 32 ∧ rest.tail = ratesText bauds := by
      rw [htail, if_neg hbauds]
      exact ⟨rfl, rfl⟩
    simp only [if_pos hloop.1, hloop.2]
    obtain ⟨fuel, r, hr, hcustom⟩ := run_ratesText line (s := ⟨ratesText bauds, [],
      [⟨.cmd, 4, 1⟩, line.strtoulReads (decimal n ++ rest), line.read rest]⟩) rfl
      (Nat.zero_le _)
    refine ⟨fuel, r.accesses ++ [line.read r.p], ?_⟩
    rw [hr, Option.map_some, hcustom]
    rfl

end

/-! ## There and back -/

/-- The rates that are tested: the accepted ones up to 32, and the sender's own where there
are none. -/
def benchmarkRates (bauds : List UInt32) : List UInt32 :=
  let accepted := (bauds.filter acceptsBaud).take 32
  if accepted.length > 0 then accepted else testBauds

/-- A benchmark that the dashboard starts and that no key and no loss disturbs comes back
to the dashboard as one result for each rate, in order, with all packets received. -/
theorem benchmark_shown_on_dashboard {n : ℕ} (hpos : 0 < n) (hn : n ≤ 10000)
    {bauds : List UInt32} {line : CommandLine}
    (htext : line.text = benchmarkText n (ratesText bauds))
    (garble : UInt32 → Sent → List UInt8) (py : PythonText) (io : RxStdio) {s : RxMain}
    (hs : s.Inv) (hr : s.receiver.Listening) :
    ∃ fuel call, testCommand line fuel = some call ∧ call.bauds = benchmarkRates bauds ∧
      ∃ looks, ∀ k, looks ≤ k → ∀ rounds stream,
        (∀ round ∈ rounds, round.key = none) →
        rounds.filterMap RxRound.byte = arriving garble s.receiver
          (sentMessages call.n call.bauds s.receiver.currentBaud (List.replicate k false)) →
        (lineReader 10).Admissible Unbroken [] [] stream →
        stream.reduceOption = io.output (rxMain.trace s rounds) →
        (py.readFromRxSerial stream).filter SocketEvent.isResult =
          (benchmarkRates bauds).map fun b => .result b.toNat n n 0 := by
  obtain ⟨fuel, accesses, hcall⟩ := testCommand_benchmarkText hpos hn htext
  have hnat : (UInt32.ofNat n).toNat = n := by
    rw [UInt32.toNat_ofNat']
    exact Nat.mod_eq_of_lt (by omega)
  obtain ⟨looks, hall⟩ := test_shown_on_dashboard hcall garble py io hs hr
  refine ⟨fuel, _, hcall, rfl, looks, ?_⟩
  intro k hk rounds stream hkey hbytes hunbroken hstream
  have hshown := hall k hk rounds stream hkey hbytes hunbroken hstream
  simp only [hnat] at hshown
  exact hshown

/-- `test 5 1000,5000000,9600`, to a receiver that has just started. -/
theorem benchmark_shown_on_dashboard_twoRates :
    ∃ fuel call, testCommand ratesLine fuel = some call ∧ call.bauds = [1000, 9600] ∧
      ∃ looks, ∀ k, looks ≤ k → ∀ rounds stream,
        (∀ round ∈ rounds, round.key = none) →
        rounds.filterMap RxRound.byte = arriving (fun _ _ => []) TestReceiver.start
          (sentMessages call.n call.bauds 9600 (List.replicate k false)) →
        (lineReader 10).Admissible Unbroken [] [] stream →
        stream.reduceOption = plainStdio.output (rxMain.trace RxMain.start rounds) →
        (asciiText.readFromRxSerial stream).filter SocketEvent.isResult =
          [.result 1000 5 5 0, .result 9600 5 5 0] :=
  benchmark_shown_on_dashboard (n := 5) (by decide) (by decide)
    (show ratesLine.text = benchmarkText 5 (ratesText [1000, 5000000, 9600]) by decide)
    (fun _ _ => []) asciiText plainStdio RxMain.start_inv ⟨rfl, rfl⟩

end LifiAuth
