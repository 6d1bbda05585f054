import LifiAuth.Support.Machine
import Mathlib.Data.List.ReduceOption

/-!
# Programmable I/O state machines

A program of at most a few instructions is executed one cycle at a time: an
instruction takes one cycle, or more while it waits, and then as many idle cycles as it
asks for.  The only rule the programs need is how long an instruction takes.
-/

namespace LifiAuth.Support

namespace Pio

abbrev Word := BitVec 32

/-- Instructions; shifts go to the right, one bit at a time. -/
inductive Op where
  | pullBlock
  | setPins (v : Word)
  | setX (v : Word)
  | outY
  | inPin
  | jmp (target : ℕ)
  | jmpNotY (target : ℕ)
  | jmpXDec (target : ℕ)
  | waitPin (polarity : Bool)

/-- An instruction with the delay in its brackets. -/
structure Instr where
  op : Op
  delay : ℕ

/-- A program; a word is pushed whenever `pushThreshold` bits were shifted in. -/
structure Program where
  instrs : List Instr
  wrapTarget : ℕ
  wrap : ℕ
  pushThreshold : ℕ

/-- Registers, remaining delay, output pins and words to be pulled; `edges` counts how
often a high pin was waited for. -/
structure State where
  pc : ℕ
  x : Word
  y : Word
  osr : Word
  isr : Word
  isrCount : ℕ
  delay : ℕ
  pins : Word
  fifo : List Word
  edges : ℕ

/-- What a cycle brings: the level of the input pin and a word for the fifo. -/
structure In where
  pin : Bool
  put : Option Word

/-- What a cycle shows: the output pins and a pushed word. -/
structure Out where
  pins : Word
  pushed : Option Word
  deriving DecidableEq

variable (p : Program) (lag : ℕ → ℕ)

/-- The next address when no jump is taken. -/
def Program.next (pc : ℕ) : ℕ :=
  if pc = p.wrap then p.wrapTarget else pc + 1

/-- The sampled bit enters from the left. -/
def shiftIn (isr : Word) (bit : Bool) : Word :=
  (isr >>> 1) ||| (if bit then 1 <<< 31 else 0)

/-- One instruction, unless it has to wait; the `k`-th high pin that is waited for is
noticed `lag k` cycles late. -/
def Program.exec (pin : Bool) (s : State) : Op → Option (State × Option Word)
  | .pullBlock =>
      match s.fifo with
      | [] => none
      | w :: fifo => some ({ s with pc := p.next s.pc, osr := w, fifo := fifo }, none)
  | .setPins v => some ({ s with pc := p.next s.pc, pins := v }, none)
  | .setX v => some ({ s with pc := p.next s.pc, x := v }, none)
  | .outY =>
      some ({ s with
        pc := p.next s.pc
        y := (BitVec.ofBool (s.osr.getLsbD 0)).setWidth 32
        osr := s.osr >>> 1 }, none)
  | .inPin =>
      let isr := shiftIn s.isr pin
      if s.isrCount + 1 = p.pushThreshold then
        some ({ s with pc := p.next s.pc, isr := 0, isrCount := 0 }, some isr)
      else
        some ({ s with pc := p.next s.pc, isr := isr, isrCount := s.isrCount + 1 }, none)
  | .jmp target => some ({ s with pc := target }, none)
  | .jmpNotY target =>
      some ({ s with pc := if s.y = 0 then target else p.next s.pc }, none)
  | .jmpXDec target =>
      some ({ s with pc := if s.x = 0 then p.next s.pc else target, x := s.x - 1 }, none)
  | .waitPin polarity =>
      if pin = polarity then
        if polarity then
          some ({ s with
            pc := p.next s.pc, delay := lag s.edges, edges := s.edges + 1 }, none)
        else some ({ s with pc := p.next s.pc }, none)
      else none

/-- The words `ws` go to the end of the fifo. -/
def State.feed (ws : List Word) (s : State) : State :=
  { s with fifo := s.fifo ++ ws }

/-- One cycle. -/
def Program.cycle (s : State) (i : In) : State × List Out :=
  match s.delay, p.instrs[s.pc]? with
  | delay + 1, _ =>
      ({ s.feed i.put.toList with delay := delay }, [⟨s.pins, none⟩])
  | 0, none => (s.feed i.put.toList, [⟨s.pins, none⟩])
  | 0, some instr =>
      match p.exec lag i.pin (s.feed i.put.toList) instr.op with
      | none => (s.feed i.put.toList, [⟨s.pins, none⟩])
      | some (s, pushed) =>
          ({ s with delay := s.delay + instr.delay }, [⟨s.pins, pushed⟩])

def Program.machine : Machine State In Out where
  step := p.cycle lag

variable {p lag} in
theorem length_cycle (s : State) (i : In) : (p.cycle lag s i).2.length = 1 := by
  rw [Program.cycle]
  split
  · rfl
  · rfl
  · split
    · rfl
    · rfl

/-- The words put during a list of cycles. -/
def putWords (is : List In) : List Word :=
  (is.map In.put).reduceOption

theorem putWords_cons (i : In) (is : List In) :
    putWords (i :: is) = i.put.toList ++ putWords is := by
  cases hput : i.put with
  | none => simp [putWords, hput]
  | some w => simp [putWords, hput]

variable {p lag} {s : State}

theorem State.feed_nil (s : State) : s.feed [] = s := by
  rw [State.feed, List.append_nil]

theorem State.feed_feed (ws vs : List Word) (s : State) :
    (s.feed ws).feed vs = s.feed (ws ++ vs) := by
  simp only [State.feed, List.append_assoc]

/-- Delay cycles only fill the fifo. -/
theorem runs_delay (is : List In) (hdelay : s.delay = is.length) :
    (p.machine lag).Runs s is (List.replicate is.length ⟨s.pins, none⟩)
      ({ s with delay := 0 }.feed (putWords is)) := by
  induction is generalizing s with
  | nil =>
      have hs : ({ s with delay := 0 } : State) = s := by
        cases s
        cases hdelay
        rfl
      rw [hs, putWords, List.map_nil, List.reduceOption_nil, State.feed_nil]
      exact .nil s
  | cons i is ih =>
      have hstep : (p.machine lag).step s i =
          ({ s.feed i.put.toList with delay := is.length }, [⟨s.pins, none⟩]) := by
        simp only [Program.machine, Program.cycle, hdelay, List.length_cons]
      rw [putWords_cons, ← State.feed_feed]
      exact .cons hstep (ih rfl)

/-- An instruction that need not wait takes one cycle and its delay. -/
theorem runs_instr {s' : State} (instr : Instr) {pushed : Option Word} {i : In}
    {is : List In} (hdelay : s.delay = 0) (hfetch : p.instrs[s.pc]? = some instr)
    (hexec : p.exec lag i.pin (s.feed i.put.toList) instr.op = some (s', pushed))
    (his : is.length = s'.delay + instr.delay) :
    (p.machine lag).Runs s (i :: is)
      (⟨s'.pins, pushed⟩ :: List.replicate is.length ⟨s'.pins, none⟩)
      ({ s' with delay := 0 }.feed (putWords is)) := by
  have hstep : (p.machine lag).step s i =
      ({ s' with delay := s'.delay + instr.delay }, [⟨s'.pins, pushed⟩]) := by
    simp only [Program.machine, Program.cycle, hdelay, hfetch, hexec]
  exact .cons hstep (runs_delay is his.symm)

/-- An instruction that has to wait leaves all but the fifo. -/
theorem runs_wait (instr : Instr) {i : In} (hdelay : s.delay = 0)
    (hfetch : p.instrs[s.pc]? = some instr)
    (hexec : p.exec lag i.pin (s.feed i.put.toList) instr.op = none) :
    (p.machine lag).Runs s [i] [⟨s.pins, none⟩] (s.feed i.put.toList) := by
  have hstep : (p.machine lag).step s i =
      (s.feed i.put.toList, [⟨s.pins, none⟩]) := by
    simp only [Program.machine, Program.cycle, hdelay, hfetch, hexec]
  have hrun := Machine.Runs.single (M := p.machine lag) s i
  rw [hstep] at hrun
  exact hrun

/-! ## Cycles whose inputs do not matter -/

variable (p lag) in
/-- Whatever comes in, `n` cycles lead from `s` to `s'`, but for the fifo. -/
def Takes (n : ℕ) (s : State) (os : List Out) (s' : State) : Prop :=
  ∀ (ws : List Word) (is : List In), is.length = n →
    (p.machine lag).Runs (s.feed ws) is os (s'.feed (ws ++ putWords is))

theorem putWords_append (is js : List In) :
    putWords (is ++ js) = putWords is ++ putWords js := by
  rw [putWords, List.map_append, List.reduceOption_append]
  rfl

theorem Takes.append {n k : ℕ} {s s' s'' : State} {os os' : List Out}
    (h : Takes p lag n s os s') (h' : Takes p lag k s' os' s'') :
    Takes p lag (n + k) s (os ++ os') s'' := by
  intro ws is his
  have hfirst := h ws (is.take n) (by rw [List.length_take]; omega)
  have hrest := h' (ws ++ putWords (is.take n)) (is.drop n)
    (by rw [List.length_drop]; omega)
  have hruns := hfirst.append hrest
  rw [List.append_assoc, ← putWords_append, List.take_append_drop] at hruns
  exact hruns

/-- An instruction that looks neither at the pin nor at the fifo. -/
theorem Takes.instr {n : ℕ} {s s' : State} {os : List Out} (instr : Instr)
    (hfetch : p.instrs[s.pc]? = some instr) (hdelay : s.delay = 0)
    (hdelay' : s'.delay = 0)
    (hexec : ∀ pin ws, p.exec lag pin (s.feed ws) instr.op = some (s'.feed ws, none))
    (hn : n = instr.delay + 1) (hos : os = List.replicate n ⟨s'.pins, none⟩) :
    Takes p lag n s os s' := by
  intro ws is his
  rw [hn] at his
  obtain ⟨i, is, rfl⟩ := List.exists_cons_of_length_eq_add_one his
  have hlen : is.length = instr.delay := Nat.succ.inj his
  have hexec' : p.exec lag i.pin ((s.feed ws).feed i.put.toList) instr.op =
      some (s'.feed (ws ++ i.put.toList), none) := by
    rw [State.feed_feed]
    exact hexec i.pin _
  have hfed : (s'.feed (ws ++ i.put.toList)).delay = 0 := hdelay'
  have hruns := runs_instr (s := s.feed ws) (i := i) instr hdelay hfetch hexec'
    (by rw [hfed, hlen, Nat.zero_add])
  have hsame : ({ s'.feed (ws ++ i.put.toList) with delay := 0 } : State) =
      s'.feed (ws ++ i.put.toList) := by
    rw [State.feed, ← hdelay']
  rw [hsame, State.feed_feed, List.append_assoc, ← putWords_cons, hlen] at hruns
  rw [hos, hn]
  exact hruns

end Pio

end LifiAuth.Support
