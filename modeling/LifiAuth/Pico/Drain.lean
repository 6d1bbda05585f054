import LifiAuth.Pico.Handlers

/-!
# Draining uart1

The bytes of uart1 go through the parser and its reports to the handlers; seen
from the handlers, draining a line is a run of the sender on the reports.
-/

namespace LifiAuth

open Support

variable (m : Mbedtls) (hse : HeatshrinkEncoder)

/-- Draining uart1: each input is one look at the line. -/
def lifiDrain : Machine (Pico × PicoUart) PicoEnv PicoOut where
  step s env :=
    let (r, u) := picoUartIter s.2
    let (p, out) := handlePicoReport m env r s.1
    ((p, u), out)

/-- The reports of `n` looks at the line. -/
def picoReports : ℕ → PicoUart → List PicoReport
  | 0, _ => []
  | n + 1, u => (picoUartIter u).1 :: picoReports n (picoUartIter u).2

/-- The events of the sender that the reports amount to. -/
def reportEvents (envs : List PicoEnv) (u : PicoUart) :
    List (PicoEnv × PicoEvent) :=
  envs.zip ((picoReports envs.length u).map .uart)

theorem trace_lifiDrain (p : Pico) (u : PicoUart) (envs : List PicoEnv) :
    (lifiDrain m).trace (p, u) envs =
      (lifiSender m hse).trace p (reportEvents envs u) := by
  induction envs generalizing p u with
  | nil => rfl
  | cons env envs ih =>
      have hevents : reportEvents (env :: envs) u =
          (env, .uart (picoUartIter u).1) ::
            reportEvents envs (picoUartIter u).2 := rfl
      rw [hevents, Machine.trace_cons, Machine.trace_cons]
      exact congrArg _ (ih _ _)

end LifiAuth
