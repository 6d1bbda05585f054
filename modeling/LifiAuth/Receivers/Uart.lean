import LifiAuth.Dash.Uart
import LifiAuth.Support.Machine

/-!
# The byte parsers of flash_receiver and ask_receiver

The two programs read the same frames as dash_receiver, with the same checks.  Their
loops differ from it, and from one another, in the state they go on with: a byte that
breaks the preamble is dropped even if it is the preamble's first one, and the type
dispatch of state four does not reset the state on every way out.
-/

namespace LifiAuth

open Support

/-! ## State four -/

/-- The types that the dispatch has a branch for. -/
def KnownType (byte : UInt8) : Prop :=
  byte = msgTypeKeyIdOnly ∨ byte = msgTypeSstHs2 ∨ byte = msgTypeEncrypted ∨
    byte = msgTypeFile

instance (byte : UInt8) : Decidable (KnownType byte) :=
  inferInstanceAs (Decidable (_ ∨ _))

/-- The type dispatch.  There is no branch for the other types. -/
def dispatchType (byte : UInt8) (line : List RxEvent) : UartReport × List RxEvent :=
  if byte = msgTypeKeyIdOnly then readKeyIdOnly line
  else if byte = msgTypeSstHs2 then readSstHs2 line
  else if byte = msgTypeEncrypted then readData .encrypted line
  else if byte = msgTypeFile then readData .file line
  else (.unknownType [byte], line)

/-- `uart_state` behind the dispatch of flash_receiver: every branch ends with a
reset. -/
def flashReceiverNext : UartReport → ℕ
  | .unknownType _ => 4
  | _ => 0

/-- `uart_state` behind the dispatch of ask_receiver: the branch of
`MSG_TYPE_KEY_ID_ONLY` has resets on its error exits only. -/
def askReceiverNext : UartReport → ℕ
  | .unknownType _ => 4
  | .frame (.keyIdOnly _ _) => 4
  | _ => 0

/-! ## One pass of the loop -/

/-- The byte at the head of the line, with `next` for the state behind the
dispatch.  A byte of the hunt leaves no message. -/
def strictByte (next : UartReport → ℕ) (uartState : ℕ) (byte : UInt8)
    (line : List RxEvent) : UartReport × Uart :=
  match uartState with
  | 0 => (.quiet, ⟨if byte = preambleByte1 then 1 else 0, line⟩)
  | 1 => (.quiet, ⟨if byte = preambleByte2 then 2 else 0, line⟩)
  | 2 => (.quiet, ⟨if byte = preambleByte3 then 3 else 0, line⟩)
  | 3 => (.quiet, ⟨if byte = preambleByte4 then 4 else 0, line⟩)
  | 4 => ((dispatchType byte line).1,
      ⟨next (dispatchType byte line).1, (dispatchType byte line).2⟩)
  | _ => (.quiet, ⟨0, line⟩)

def strictIter (next : UartReport → ℕ) (u : Uart) : UartReport × Uart :=
  match u.line with
  | [] => (.quiet, u)
  | .byte b :: line => strictByte next u.uartState b line
  | .idle :: line => (.quiet, ⟨u.uartState, line⟩)
  | .timeout :: line => (.quiet, ⟨u.uartState, line⟩)

def flashReceiverIter : Uart → UartReport × Uart :=
  strictIter flashReceiverNext

def askReceiverIter : Uart → UartReport × Uart :=
  strictIter askReceiverNext

/-- The two programs whose parsers are modelled here. -/
inductive OtherReceiver where
  | flash
  | ask
  deriving DecidableEq

namespace OtherReceiver

def next : OtherReceiver → UartReport → ℕ
  | flash => flashReceiverNext
  | ask => askReceiverNext

def iter : OtherReceiver → Uart → UartReport × Uart
  | flash => flashReceiverIter
  | ask => askReceiverIter

/-- The passes of the loop. -/
def machine (receiver : OtherReceiver) : Machine Uart Unit UartReport where
  step u _ := ((receiver.iter u).2, [(receiver.iter u).1])

end OtherReceiver

end LifiAuth
