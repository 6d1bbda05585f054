import LifiAuth.Benchmark.Messages
import LifiAuth.Support.Access
import LifiAuth.Support.Loop

/-!
# The 'test' command

`main` of `pico_speed_test_sender.c` reads the number of packets and the rates of a test
from the command line.  The loop over the rates goes on as long as there is text, but
only numbers and commas take it forward: it ends exactly on lists of those.
-/

namespace LifiAuth

open Support Access

/-- What `fgets` leaves in `cmd[256]`, up to the terminator. -/
structure CommandLine where
  text : List UInt8
  not_mem : 0 ∉ text
  length_le : text.length ≤ 255

inductive CommandArray where
  | cmd
  | customBauds
  deriving DecidableEq

/-- The string with its terminator, and the rates. -/
def CommandLine.size (line : CommandLine) : CommandArray → ℕ
  | .cmd => line.text.length + 1
  | .customBauds => 32

/-- `TEST_BAUDS`. -/
def testBauds : List UInt32 := [9600, 100000, 500000, 1000000]

/-- The variables of the loop; `p` stands for the text it points to. -/
structure RateScan where
  p : List UInt8
  customBauds : List UInt32
  accesses : List (Access CommandArray)

/-- The offset of `p` in a string. -/
def CommandLine.offset (line : CommandLine) (p : List UInt8) : ℕ :=
  line.text.length - p.length

/-- `strtoul(p, &p, 10)` looks at the text it passes over and one character more. -/
def CommandLine.strtoulReads (line : CommandLine) (p : List UInt8) :
    Access CommandArray :=
  ⟨.cmd, line.offset p, strtoulScan p + 1⟩

/-- `*p`. -/
def CommandLine.read (line : CommandLine) (p : List UInt8) : Access CommandArray :=
  ⟨.cmd, line.offset p, 1⟩

/-- `while (*p && custom_n < 32)`. -/
def rateLoop (line : CommandLine) : While RateScan where
  test s := s.p ≠ [] ∧ s.customBauds.length < 32
  body s :=
    let b := strtoul s.p
    let q := s.p.drop (strtoulEnd s.p)
    { p := if q.head? = some 44 then q.tail else q
      customBauds := if acceptsBaud b then s.customBauds ++ [b] else s.customBauds
      accesses := s.accesses ++ [line.read s.p, line.strtoulReads s.p] ++
        (if acceptsBaud b then [⟨.customBauds, s.customBauds.length, 1⟩] else []) ++
        [line.read q] }

/-- What `run_auto_test` is called with; `accesses` are those of the command. -/
structure TestCall where
  n : UInt32
  customBauds : List UInt32
  accesses : List (Access CommandArray)

def TestCall.bauds (call : TestCall) : List UInt32 :=
  if call.customBauds.length > 0 then call.customBauds else testBauds

/-- `if (n == 0 || n > 10000) n = 50`. -/
def packetCount (n : UInt32) : UInt32 :=
  if n = 0 ∨ n > 10000 then 50 else n

/-- The command `test` and those that start with `test `; `none` when the fuel for the
loop is used up. -/
def testCommand (line : CommandLine) (fuel : ℕ) : Option TestCall :=
  let p := line.text.drop 4
  if p.head? = some 32 then
    let p := p.tail
    let n := packetCount (strtoul p)
    let q := p.drop (strtoulEnd p)
    let accesses := [⟨.cmd, 4, 1⟩, line.strtoulReads p, line.read q]
    if q.head? = some 32 then
      ((rateLoop line).run fuel ⟨q.tail, [], accesses⟩).map fun s =>
        ⟨n, s.customBauds, s.accesses ++ [line.read s.p]⟩
    else some ⟨n, [], accesses⟩
  else some ⟨50, [], [⟨.cmd, 4, 1⟩]⟩

/-! ## Lists of rates -/

/-- The number of stored rates after a number has been read. -/
def storedAfter (k : ℕ) (b : UInt32) : ℕ :=
  if acceptsBaud b then k + 1 else k

/-- With `k` rates stored, the text consists of commas and numbers, at least up to the
point where 32 rates have been stored. -/
inductive RateList : ℕ → List UInt8 → Prop where
  | full {k : ℕ} (h : 32 ≤ k) (s : List UInt8) : RateList k s
  | nil (k : ℕ) : RateList k []
  | comma {k : ℕ} {s : List UInt8} (h : RateList k s) : RateList k (44 :: s)
  | number {k : ℕ} {w s : List UInt8} (hw : IsNumeral w)
      (hend : ∀ c ∈ s.head?, isDigit c = false) (h : RateList (storedAfter k (strtoul w)) s) :
      RateList k (w ++ s)

/-- What is left for the loop: the text behind the number of packets and a blank. -/
def CommandLine.rates (line : CommandLine) : Option (List UInt8) :=
  let p := line.text.drop 5
  let q := p.drop (strtoulEnd p)
  if q.head? = some 32 then some q.tail else none

theorem strtoulEnd_comma (s : List UInt8) : strtoulEnd (44 :: s) = 0 := by
  have hspace : (44 :: s).dropWhile isSpace = 44 :: s :=
    List.dropWhile_cons_of_neg (by decide)
  have hdigits : strtoulDigits (44 :: s) = [] := by
    rw [strtoulDigits, hspace]
    simp [signLength, isDigit]
  rw [strtoulEnd, if_pos hdigits]

theorem IsNumeral.length_pos {w : List UInt8} (hw : IsNumeral w) : 0 < w.length := by
  obtain ⟨blanks, sign, digits, h, rfl⟩ := hw
  have hpos := List.length_pos_of_ne_nil h.ne_nil
  simp only [List.length_append]
  omega

namespace RateList

variable {k : ℕ}

theorem comma_iff {s : List UInt8} : RateList k (44 :: s) ↔ RateList k s := by
  constructor
  · intro h
    generalize ht : 44 :: s = t at h
    cases h with
    | full hk => exact .full hk s
    | nil => cases ht
    | comma h => exact (List.cons.inj ht).2 ▸ h
    | @number _ w _ hw hend =>
        have hzero := strtoulEnd_comma s
        rw [ht, hw.strtoulEnd_append hend] at hzero
        exact absurd hw.length_pos (by omega)
  · exact .comma

theorem number_iff (hk : k < 32) {w s : List UInt8} (hw : IsNumeral w)
    (hend : ∀ c ∈ s.head?, isDigit c = false) :
    RateList k (w ++ s) ↔ RateList (storedAfter k (strtoul w)) s := by
  have hread := hw.strtoulEnd_append hend
  have hpos := hw.length_pos
  constructor
  · intro h
    generalize ht : w ++ s = t at h
    cases h with
    | full hk' => omega
    | nil =>
        have hle := strtoulEnd_le []
        rw [← ht, hread, ht, List.length_nil] at hle
        omega
    | comma =>
        rw [ht, strtoulEnd_comma] at hread
        omega
    | @number _ w' s' hw' hend' h =>
        rw [ht, hw'.strtoulEnd_append hend'] at hread
        obtain ⟨rfl, rfl⟩ := List.append_inj ht hread.symm
        exact h
  · exact .number hw hend

/-- Where `strtoul` finds no number and there is no comma, there is no list. -/
theorem not_of_stuck (hk : k < 32) {p : List UInt8} (hne : p ≠ [])
    (hread : strtoulEnd p = 0) (hcomma : p.head? ≠ some 44) : ¬ RateList k p := by
  intro h
  cases h with
  | full hk' => omega
  | nil => exact hne rfl
  | comma => exact hcomma rfl
  | number hw hend =>
      rw [hw.strtoulEnd_append hend] at hread
      exact absurd hw.length_pos (by omega)

end RateList

/-! ## The loop -/

section

variable {line : CommandLine} {s : RateScan}

theorem rateLoop_test :
    (rateLoop line).test s = true ↔ s.p ≠ [] ∧ s.customBauds.length < 32 :=
  decide_eq_true_iff

theorem length_customBauds_body :
    ((rateLoop line).body s).customBauds.length =
      storedAfter s.customBauds.length (strtoul s.p) := by
  simp only [rateLoop, storedAfter]
  split
  · exact List.length_append
  · rfl

/-- One round takes a list of rates to a list of rates, and nothing else to one. -/
theorem rateList_body_iff (htest : (rateLoop line).test s = true) :
    RateList ((rateLoop line).body s).customBauds.length ((rateLoop line).body s).p ↔
      RateList s.customBauds.length s.p := by
  obtain ⟨hne, hk⟩ := rateLoop_test.mp htest
  -- The comma that is skipped changes nothing.
  have hskip (k : ℕ) (q : List UInt8) :
      RateList k (if q.head? = some 44 then q.tail else q) ↔ RateList k q := by
    split
    · next h =>
        obtain ⟨t, rfl⟩ := List.head?_eq_some_iff.mp h
        exact RateList.comma_iff.symm
    · exact Iff.rfl
  have hbody : ((rateLoop line).body s).p =
      if (s.p.drop (strtoulEnd s.p)).head? = some 44 then (s.p.drop (strtoulEnd s.p)).tail
      else s.p.drop (strtoulEnd s.p) := rfl
  rw [length_customBauds_body, hbody, hskip]
  by_cases hread : strtoulEnd s.p = 0
  · rw [hread, strtoul_of_strtoulEnd_eq_zero hread]
    exact Iff.rfl
  · obtain ⟨w, rest, hp, hw, hend⟩ := isNumeral_of_strtoulEnd hread
    rw [hp, hw.strtoulEnd_append hend, hw.strtoul_append hend, List.drop_left,
      RateList.number_iff hk hw hend]

/-- A round of a list of rates makes the text shorter. -/
theorem length_body_lt (htest : (rateLoop line).test s = true)
    (h : RateList s.customBauds.length s.p) :
    ((rateLoop line).body s).p.length < s.p.length := by
  obtain ⟨hne, hk⟩ := rateLoop_test.mp htest
  have hpos := List.length_pos_of_ne_nil hne
  have hle := strtoulEnd_le s.p
  simp only [rateLoop]
  split
  · rw [List.length_tail, List.length_drop]
    omega
  · next hcomma =>
      rw [List.length_drop]
      by_contra hge
      have hread : strtoulEnd s.p = 0 := by omega
      rw [hread] at hcomma
      exact RateList.not_of_stuck hk hne hread hcomma h

/-- The loop ends exactly on lists of rates. -/
theorem rateLoop_ends_iff :
    (rateLoop line).Ends s ↔ RateList s.customBauds.length s.p := by
  constructor
  · intro h
    induction h with
    | @done s h =>
        by_cases hp : s.p = []
        · rw [hp]
          exact .nil _
        · have hfull : ¬ s.customBauds.length < 32 := fun hk =>
            Bool.false_ne_true (h.symm.trans (rateLoop_test.mpr ⟨hp, hk⟩))
          exact .full (Nat.le_of_not_lt hfull) _
    | step htest _ ih => exact (rateList_body_iff htest).mp ih
  · intro h
    refine While.ends_of_measure (P := fun s => RateList s.customBauds.length s.p)
      (fun s => s.p.length) ?_ h
    intro s h htest
    exact ⟨(rateList_body_iff htest).mpr h, length_body_lt htest h⟩

end

/-! ## Bounds -/

section

variable {line : CommandLine}

/-- What holds of the loop's variables in every round. -/
structure RateScan.Inv (line : CommandLine) (s : RateScan) : Prop where
  p_le : s.p.length ≤ line.text.length
  length_le : s.customBauds.length ≤ 32
  accepted : ∀ b ∈ s.customBauds, acceptsBaud b = true
  allIn : AllIn line.size s.accesses

theorem inBounds_read {p : List UInt8} (hp : p.length ≤ line.text.length) :
    (line.read p).first + (line.read p).count ≤ line.size (line.read p).array := by
  simp only [CommandLine.read, CommandLine.offset, CommandLine.size]
  omega

theorem inBounds_strtoulReads {p : List UInt8} (hp : p.length ≤ line.text.length) :
    (line.strtoulReads p).first + (line.strtoulReads p).count ≤
      line.size (line.strtoulReads p).array := by
  have hscan := strtoulScan_le p
  simp only [CommandLine.strtoulReads, CommandLine.offset, CommandLine.size]
  omega

theorem RateScan.Inv.body {s : RateScan} (h : s.Inv line)
    (htest : (rateLoop line).test s = true) : ((rateLoop line).body s).Inv line := by
  obtain ⟨hne, hk⟩ := rateLoop_test.mp htest
  have hp := h.p_le
  have hdrop : (s.p.drop (strtoulEnd s.p)).length ≤ line.text.length := by
    rw [List.length_drop]
    omega
  refine ⟨?_, ?_, ?_, ?_⟩
  · simp only [rateLoop]
    split
    · rw [List.length_tail]
      omega
    · exact hdrop
  · rw [length_customBauds_body, storedAfter]
    split <;> omega
  · simp only [rateLoop]
    split
    · next hb =>
        intro b hmem
        rcases List.mem_append.mp hmem with hmem | hmem
        · exact h.accepted b hmem
        · rw [List.mem_singleton.mp hmem]
          exact hb
    · exact h.accepted
  · have hwrite : AllIn line.size (if acceptsBaud (strtoul s.p) then
        [⟨.customBauds, s.customBauds.length, 1⟩] else []) := by
      split
      · exact allIn_cons.mpr ⟨hk, allIn_nil⟩
      · exact allIn_nil
    refine allIn_append.mpr ⟨allIn_append.mpr ⟨allIn_append.mpr ⟨h.allIn, ?_⟩, hwrite⟩, ?_⟩
    · exact allIn_cons.mpr
        ⟨inBounds_read hp, allIn_cons.mpr ⟨inBounds_strtoulReads hp, allIn_nil⟩⟩
    · exact allIn_cons.mpr ⟨inBounds_read hdrop, allIn_nil⟩

end

/-! ## The command -/

/-- The command gets as far as calling `run_auto_test`, with at most 32 rates, all of them
accepted ones, and within the string and the array. -/
def TestCommandSafe (line : CommandLine) : Prop :=
  ∃ fuel call, testCommand line fuel = some call ∧ call.customBauds.length ≤ 32 ∧
    (∀ b ∈ call.customBauds, 1000 ≤ b ∧ b ≤ 4000000) ∧ AllIn line.size call.accesses

/-- The loop's variables when it is entered. -/
def CommandLine.scan (line : CommandLine) (rates : List UInt8) : RateScan :=
  let p := line.text.drop 5
  ⟨rates, [], [⟨.cmd, 4, 1⟩, line.strtoulReads p, line.read (p.drop (strtoulEnd p))]⟩

section

variable {line : CommandLine} (h : ascii "test " <+: line.text)
include h

theorem blank_after_test : (line.text.drop 4).head? = some 32 ∧
    (line.text.drop 4).tail = line.text.drop 5 ∧ 5 ≤ line.text.length := by
  obtain ⟨t, ht⟩ := h
  rw [← ht]
  refine ⟨rfl, rfl, ?_⟩
  rw [List.length_append]
  exact Nat.le_add_right 5 t.length

/-- The variables are in order when the loop is entered, and when it is not. -/
theorem scan_inv (rates : List UInt8) (hrates : rates.length ≤ line.text.length) :
    (line.scan rates).Inv line := by
  obtain ⟨-, -, hlen⟩ := blank_after_test h
  have hp : (line.text.drop 5).length ≤ line.text.length := by simp
  have hq : ((line.text.drop 5).drop (strtoulEnd (line.text.drop 5))).length ≤
      line.text.length := by
    simp only [List.length_drop]
    omega
  have hblank : 4 + 1 ≤ line.size .cmd := by
    simp only [CommandLine.size]
    omega
  refine ⟨hrates, Nat.zero_le _, List.forall_mem_nil _, ?_⟩
  exact allIn_cons.mpr ⟨hblank, allIn_cons.mpr
    ⟨inBounds_strtoulReads hp, allIn_cons.mpr ⟨inBounds_read hq, allIn_nil⟩⟩⟩

/-- A command without rates does not enter the loop. -/
theorem testCommandSafe_of_rates_none (hrates : line.rates = none) :
    TestCommandSafe line := by
  obtain ⟨hblank, htail, -⟩ := blank_after_test h
  have hnot : ((line.text.drop 5).drop (strtoulEnd (line.text.drop 5))).head? ≠ some 32 := by
    intro hq
    rw [CommandLine.rates, if_pos hq] at hrates
    cases hrates
  have hrun := testCommand.eq_def line 0
  rw [if_pos hblank, htail, if_neg hnot] at hrun
  exact ⟨0, _, hrun, Nat.zero_le _, List.forall_mem_nil _,
    (scan_inv h [] (Nat.zero_le line.text.length)).allIn⟩

/-- A command with rates runs the loop over them. -/
theorem testCommand_of_rates_some {rates : List UInt8} (hrates : line.rates = some rates) :
    rates.length ≤ line.text.length ∧ ∀ fuel, testCommand line fuel =
      ((rateLoop line).run fuel (line.scan rates)).map fun s =>
        ⟨packetCount (strtoul (line.text.drop 5)), s.customBauds,
          s.accesses ++ [line.read s.p]⟩ := by
  obtain ⟨hblank, htail, -⟩ := blank_after_test h
  rw [CommandLine.rates] at hrates
  split at hrates
  · next hq =>
      obtain rfl := Option.some.inj hrates
      refine ⟨by simp, fun fuel => ?_⟩
      rw [testCommand, if_pos hblank, htail, if_pos hq]
      rfl
  · cases hrates

omit h in
/-- A list of rates is parsed to its end. -/
theorem exists_testCommand (hrates : ∀ rates ∈ line.rates, RateList 0 rates) :
    ∃ fuel call, testCommand line fuel = some call := by
  by_cases hblank : (line.text.drop 4).head? = some 32
  · have htail : (line.text.drop 4).tail = line.text.drop 5 := by
      rw [List.tail_drop]
    by_cases hq : ((line.text.drop 5).drop (strtoulEnd (line.text.drop 5))).head? = some 32
    · have hlist := hrates _ (by rw [CommandLine.rates, if_pos hq]; exact rfl)
      have hends : (rateLoop line).Ends (line.scan _) := rateLoop_ends_iff.mpr hlist
      obtain ⟨fuel, s, hs⟩ := While.ends_iff_run.mp hends
      have hrun := testCommand.eq_def line fuel
      rw [if_pos hblank, htail, if_pos hq] at hrun
      exact ⟨fuel, _, hrun.trans (congrArg _ hs)⟩
    · have hrun := testCommand.eq_def line 0
      rw [if_pos hblank, htail, if_neg hq] at hrun
      exact ⟨0, _, hrun⟩
  · have hrun := testCommand.eq_def line 0
    rw [if_neg hblank] at hrun
    exact ⟨0, _, hrun⟩

/-- The command is safe exactly when what follows the number of packets and a blank, if
anything does, is a list of rates. -/
theorem testCommand_safe_iff :
    TestCommandSafe line ↔ ∀ rates ∈ line.rates, RateList 0 rates := by
  cases hrates : line.rates with
  | none =>
      refine iff_of_true (testCommandSafe_of_rates_none h hrates) ?_
      simp
  | some rates =>
      obtain ⟨hlen, hrun⟩ := testCommand_of_rates_some h hrates
      have hends : (rateLoop line).Ends (line.scan rates) ↔ RateList 0 rates :=
        rateLoop_ends_iff
      simp only [Option.mem_some_iff, forall_eq']
      rw [← hends, While.ends_iff_run]
      constructor
      · rintro ⟨fuel, call, hcall, -⟩
        rw [hrun] at hcall
        obtain ⟨s, hs, -⟩ := Option.map_eq_some_iff.mp hcall
        exact ⟨fuel, s, hs⟩
      · rintro ⟨fuel, s, hs⟩
        have hinv : s.Inv line := While.run_invariant (P := fun s => s.Inv line)
          (fun _ hs htest => hs.body htest) (scan_inv h rates hlen) hs
        refine ⟨fuel, _, by rw [hrun, hs]; rfl, hinv.length_le, ?_, ?_⟩
        · intro b hb
          simpa [acceptsBaud] using hinv.accepted b hb
        · exact allIn_append.mpr
            ⟨hinv.allIn, allIn_cons.mpr ⟨inBounds_read hinv.p_le, allIn_nil⟩⟩

end

/-- `test 5 1000,5000000,9600`; the second rate is out of range. -/
def ratesLine : CommandLine where
  text := ascii "test 5 1000,5000000,9600"
  not_mem := by decide
  length_le := by decide

theorem rateList_ratesLine : ∀ rates ∈ ratesLine.rates, RateList 0 rates := by
  have hrates : ratesLine.rates =
      some (decimal 1000 ++ 44 :: (decimal 5000000 ++ 44 :: (decimal 9600 ++ []))) := by
    decide
  rw [hrates]
  intro rates hmem
  obtain rfl := Option.mem_some_iff.mp hmem
  exact .number (isNumeral_decimal 1000) (by decide)
    (.comma (.number (isNumeral_decimal 5000000) (by decide)
      (.comma (.number (isNumeral_decimal 9600) (by decide) (.nil _)))))

theorem testCommand_safe_rates : TestCommandSafe ratesLine :=
  (testCommand_safe_iff (by decide)).mpr rateList_ratesLine

/-- `test 5 x`. -/
def letterLine : CommandLine where
  text := ascii "test 5 x"
  not_mem := by decide
  length_le := by decide

/-- The loop stays at the letter for ever. -/
theorem testCommand_letter_hangs :
    (∀ fuel, testCommand letterLine fuel = none) ∧ ¬ TestCommandSafe letterLine := by
  have hrates : letterLine.rates = some (ascii "x") := by decide
  have hnever (fuel : ℕ) : testCommand letterLine fuel = none := by
    obtain ⟨-, hrun⟩ := testCommand_of_rates_some (by decide) hrates
    have hends : ¬ (rateLoop letterLine).Ends (letterLine.scan (ascii "x")) := by
      rw [rateLoop_ends_iff]
      exact RateList.not_of_stuck (by decide) (by decide) (by decide) (by decide)
    rw [hrun, Option.map_eq_none_iff, Option.eq_none_iff_forall_ne_some]
    intro r hr
    exact hends (While.ends_iff_run.mpr ⟨fuel, r, hr⟩)
  refine ⟨hnever, ?_⟩
  rintro ⟨fuel, call, hcall, -⟩
  rw [hnever fuel] at hcall
  cases hcall

end LifiAuth
