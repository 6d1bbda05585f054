import LifiAuth.Dash.FrameRoundTrip
import LifiAuth.Keys.Receiver
import LifiAuth.Support.FrameQueue
import LifiAuth.System.Fidelity
import LifiAuth.Wifi.ForceKey

/-!
# Sender and receiver wired to each other

The two programs with the serial line to the sender and the light link back, and nobody
between them: what one writes is what the other gets to read, in any interleaving of
looks at the lines, typed lines, key presses and deadlines.  The bytes of a frame are put
on the line at once, so that no timed read expires.  Each line is a queue of whole frames
to the parser that reads it.
-/

namespace LifiAuth

open Support

/-! ## The frames to the sender -/

/-- The frames that the receiver writes to the Pico. -/
inductive PicoFrame where
  | hs1 (payload : Bytes 72)
  | hs3 (payload : Bytes 80)
  | key (keyId : Bytes 8) (key : Bytes 16) (macKey : Bytes 32)

namespace PicoFrame

def bytes : PicoFrame → List UInt8
  | hs1 payload => txHeader msgTypeSstHs1 sstHs1PayloadSize ++ payload.toList
  | hs3 payload => txHeader msgTypeSstHs3 sstHs3PayloadSize ++ payload.toList
  | key keyId newKey macKey => keyFrame keyId newKey macKey

/-- What the sender's parser makes of it. -/
def report : PicoFrame → PicoReport
  | hs1 payload => .hs1 payload
  | hs3 payload => .hs3 payload
  | key keyId newKey macKey => .key keyId newKey macKey

def type : PicoFrame → UInt8
  | hs1 _ => msgTypeSstHs1
  | hs3 _ => msgTypeSstHs3
  | key _ _ _ => msgTypeKey

/-- What follows the type byte. -/
def afterType : PicoFrame → List UInt8
  | hs1 payload => (lenBytes sstHs1PayloadSize).toList ++ payload.toList
  | hs3 payload => (lenBytes sstHs3PayloadSize).toList ++ payload.toList
  | key keyId newKey macKey => (lenBytes keyFrameLen).toList ++
      (keyId.toList ++ (newKey.toList ++ macKey.toList))

theorem bytes_eq (f : PicoFrame) : f.bytes = preamble ++ f.type :: f.afterType := by
  cases f with
  | hs1 payload => simp [bytes, txHeader, type, afterType]
  | hs3 payload => simp [bytes, txHeader, type, afterType]
  | key keyId newKey macKey =>
      rw [bytes, keyFrame_eq]
      simp [type, afterType]

end PicoFrame

/-- A handshake message that comes without a timeout is read whole. -/
theorem readHandshake_of_carries (type : UInt8) {size : ℕ}
    {onBadHeader : List RxEvent → List RxEvent} {mk : Bytes size → PicoReport}
    (payload : Bytes size) (hsize : (be16Of (lenBytes size)).toNat = size)
    {line : List RxEvent} {rest : List UInt8}
    (h : Carries line ((lenBytes size).toList ++ (payload.toList ++ rest))) :
    ∃ line', readHandshake type size onBadHeader mk line = (mk payload, line') ∧
      Carries line' rest := by
  obtain ⟨line₁, hlen, h, -⟩ := readExact_of_carries _ h
  obtain ⟨line₂, hpayload, h, -⟩ := readExact_of_carries payload h
  refine ⟨line₂, ?_, h⟩
  simp only [readHandshake, hlen, hpayload]
  exact if_neg (not_not_intro hsize)

/-- The branch of its type reads a frame back. -/
theorem picoReadFrame_of_carries (f : PicoFrame) {line : List RxEvent} {rest : List UInt8}
    (h : Carries line (f.afterType ++ rest)) :
    ∃ line', picoReadFrame f.type line = (f.report, line') ∧ Carries line' rest := by
  cases f with
  | hs1 payload =>
      rw [PicoFrame.afterType, List.append_assoc] at h
      exact readHandshake_of_carries _ payload (by decide) h
  | hs3 payload =>
      rw [PicoFrame.afterType, List.append_assoc] at h
      exact readHandshake_of_carries _ payload (by decide) h
  | key keyId key macKey =>
      simp only [PicoFrame.afterType, List.append_assoc] at h
      obtain ⟨line', hread, hrest, -⟩ := readKey_of_carries _ keyId key macKey h
      exact ⟨line', hread, hrest⟩

/-! ## The frames to the receiver -/

/-- What follows the type byte. -/
def LifiFrame.afterType (f : LifiFrame) : List UInt8 :=
  (lenBytes f.payload.length).toList ++ (f.payload ++
    (crcBytes ([f.type] ++ (lenBytes f.payload.length).toList ++ f.payload)).toList)

theorem LifiFrame.bytes_eq (f : LifiFrame) :
    f.bytes = preamble ++ f.type :: f.afterType := by
  rw [f.bytes_eq_sendShort]
  simp [sendShort, afterType]

/-- The branch of its type reads a frame back. -/
theorem dashReadFrame_of_carries (f : LifiFrame) {line : List RxEvent} {rest : List UInt8}
    (h : Carries line (f.afterType ++ rest)) :
    ∃ line', readFrame f.type line = (.frame f.received, line') ∧ Carries line' rest := by
  rw [LifiFrame.afterType, List.append_assoc, List.append_assoc] at h
  obtain ⟨line', hread, hrest, -⟩ := readFrame_of_carries f rest h
  exact ⟨line', hread, hrest⟩

/-! ## Looks at lines of bytes -/

/-- One look of the sender at uart1. -/
def picoLook (challengeState : ℕ) (line : List UInt8) : PicoReport × ℕ × List UInt8 :=
  let r := picoUartIter ⟨challengeState, steady line⟩
  (r.1, r.2.challengeState, receivedBytes r.2.line)

/-- One look of the receiver at its serial port. -/
def dashLook (uartState : ℕ) (line : List UInt8) : UartReport × ℕ × List UInt8 :=
  let r := uartIter ⟨uartState, steady line⟩
  (r.1, r.2.uartState, receivedBytes r.2.line)

theorem receivedBytes_steady (bs : List UInt8) : receivedBytes (steady bs) = bs :=
  (carries_steady bs).receivedBytes_eq

/-- A parser that may meet a preamble in the states `hunting`, has taken as much of it as
its state says, and is at the type byte in state four. -/
def wireParser {ρ φ : Type} (look : ℕ → List UInt8 → ρ × ℕ × List UInt8) (quiet : ρ → Bool)
    (hunting : ℕ → Prop) (frame : φ → List UInt8) (report : φ → ρ) :
    FrameParser ℕ UInt8 ρ φ where
  look := look
  quiet := quiet
  hunting := hunting
  inside := id
  depth := 4
  frame := frame
  report := report

section

variable {ρ φ : Type} {look : ℕ → List UInt8 → ρ × ℕ × List UInt8} {quiet : ρ → Bool}
  {hunting : ℕ → Prop} {frame : φ → List UInt8} {report : φ → ρ}

/-- What such a parser does with the preamble and with what follows it. -/
theorem lawful_wireParser {type : φ → UInt8} {afterType : φ → List UInt8}
    (hframe : ∀ f, frame f = preamble ++ type f :: afterType f)
    (hloud : ∀ f, quiet (report f) = false)
    (hnil : ∀ k, quiet (look k []).1 ∧ (look k []).2 = (k, [])) (hstart : hunting 0)
    (hfirst : ∀ k, hunting k → ∀ line, quiet (look k (preambleByte1 :: line)).1 ∧
      (look k (preambleByte1 :: line)).2 = (1, line))
    (hsecond : ∀ line, quiet (look 1 (preambleByte2 :: line)).1 ∧
      (look 1 (preambleByte2 :: line)).2 = (2, line))
    (hthird : ∀ line, quiet (look 2 (preambleByte3 :: line)).1 ∧
      (look 2 (preambleByte3 :: line)).2 = (3, line))
    (hfourth : ∀ line, quiet (look 3 (preambleByte4 :: line)).1 ∧
      (look 3 (preambleByte4 :: line)).2 = (4, line))
    (htype : ∀ f line, look 4 (type f :: (afterType f ++ line)) = (report f, 0, line)) :
    (wireParser look quiet hunting frame report).Lawful where
  depth_pos := Nat.succ_pos 3
  depth_lt f := by
    have hbytes : (wireParser look quiet hunting frame report).frame f = _ := hframe f
    rw [hbytes, List.length_append]
    exact Nat.add_le_add_left (Nat.succ_pos _) 4
  loud := hloud
  nil := hnil
  first k f line hk := by
    have hbytes : (wireParser look quiet hunting frame report).frame f = _ := hframe f
    rw [hbytes]
    exact hfirst k hk _
  next j f line hpos hlt := by
    have hbytes : (wireParser look quiet hunting frame report).frame f = _ := hframe f
    have hcases : j = 1 ∨ j = 2 ∨ j = 3 := by
      have hle : j < 4 := hlt
      omega
    rw [hbytes]
    rcases hcases with rfl | rfl | rfl
    · exact hsecond _
    · exact hthird _
    · exact hfourth _
  last f line := by
    have hbytes : (wireParser look quiet hunting frame report).frame f = _ := hframe f
    rw [hbytes]
    exact ⟨0, hstart, htype f line⟩

end

def picoParser : FrameParser ℕ UInt8 PicoReport PicoFrame :=
  wireParser picoLook (fun r => decide (r = .quiet)) (· ≤ 3) PicoFrame.bytes PicoFrame.report

theorem lawful_picoParser : picoParser.Lawful := by
  have hline (k k' : ℕ) (b : UInt8) (line : List UInt8)
      (hstep : picoUartIter ⟨k, steady (b :: line)⟩ = (.quiet, ⟨k', steady line⟩)) :
      decide ((picoLook k (b :: line)).1 = .quiet) = true ∧
        (picoLook k (b :: line)).2 = (k', line) := by
    rw [picoLook, hstep, receivedBytes_steady]
    exact ⟨rfl, rfl⟩
  refine lawful_wireParser PicoFrame.bytes_eq (fun f => by cases f <;> rfl)
    (fun k => ⟨rfl, rfl⟩) (Nat.zero_le 3) ?_ (fun line => hline 1 2 _ line rfl)
    (fun line => hline 2 3 _ line rfl) (fun line => hline 3 4 _ line rfl) ?_
  · intro k hk line
    have hcases : k = 0 ∨ k = 1 ∨ k = 2 ∨ k = 3 := by omega
    rcases hcases with rfl | rfl | rfl | rfl
    all_goals exact hline _ 1 _ line rfl
  · intro f line
    obtain ⟨line', hread, hrest⟩ :=
      picoReadFrame_of_carries f (carries_steady (f.afterType ++ line))
    have hlook : picoLook 4 (f.type :: (f.afterType ++ line)) =
        ((picoReadFrame f.type (steady (f.afterType ++ line))).1, 0,
          receivedBytes (picoReadFrame f.type (steady (f.afterType ++ line))).2) := rfl
    rw [hlook, hread, hrest.receivedBytes_eq]

/-- The pass got nothing or a byte of a whole preamble. -/
def UartReport.unbroken : UartReport → Bool
  | .quiet | .preambleOk => true
  | _ => false

/-- The receiver's parser; which reports count as quiet depends on where it may be when a
preamble begins. -/
def dashWire (quiet : UartReport → Bool) (hunting : ℕ → Prop) :
    FrameParser ℕ UInt8 UartReport LifiFrame :=
  wireParser dashLook quiet hunting LifiFrame.bytes fun f => .frame f.received

/-- Wherever it hunts, a preamble may break at its first byte. -/
def dashParser : FrameParser ℕ UInt8 UartReport LifiFrame :=
  dashWire UartReport.hunting (· ≤ 3)

/-- Between two preambles none breaks. -/
def restingParser : FrameParser ℕ UInt8 UartReport LifiFrame :=
  dashWire UartReport.unbroken (· = 0)

theorem dashLook_of_step {k k' : ℕ} {b : UInt8} {line : List UInt8} {r : UartReport}
    (hstep : uartIter ⟨k, steady (b :: line)⟩ = (r, ⟨k', steady line⟩)) :
    dashLook k (b :: line) = (r, k', line) := by
  rw [dashLook, hstep, receivedBytes_steady]

theorem lawful_dashWire {quiet : UartReport → Bool} {hunting : ℕ → Prop}
    (hquiet : quiet .quiet = true) (hok : quiet .preambleOk = true)
    (hloud : ∀ f, quiet (.frame f) = false) (hstart : hunting 0)
    (hfirst : ∀ k, hunting k → ∀ line, quiet (dashLook k (preambleByte1 :: line)).1 ∧
      (dashLook k (preambleByte1 :: line)).2 = (1, line)) :
    (dashWire quiet hunting).Lawful := by
  have hline {k k' : ℕ} {b : UInt8} {line : List UInt8} {r : UartReport}
      (hr : quiet r = true)
      (hstep : uartIter ⟨k, steady (b :: line)⟩ = (r, ⟨k', steady line⟩)) :
      quiet (dashLook k (b :: line)).1 = true ∧ (dashLook k (b :: line)).2 = (k', line) := by
    rw [dashLook_of_step hstep]
    exact ⟨hr, rfl⟩
  refine lawful_wireParser LifiFrame.bytes_eq (fun f => hloud _) (fun k => ⟨hquiet, rfl⟩)
    hstart hfirst (fun line => hline hquiet rfl) (fun line => hline hquiet rfl)
    (fun line => hline hok rfl) ?_
  intro f line
  obtain ⟨line', hread, hrest⟩ :=
    dashReadFrame_of_carries f (carries_steady (f.afterType ++ line))
  have hlook : dashLook 4 (f.type :: (f.afterType ++ line)) =
      ((readFrame f.type (steady (f.afterType ++ line))).1, 0,
        receivedBytes (readFrame f.type (steady (f.afterType ++ line))).2) := rfl
  rw [hlook, hread, hrest.receivedBytes_eq]

theorem lawful_dashParser : dashParser.Lawful := by
  refine lawful_dashWire rfl rfl (fun _ => rfl) (Nat.zero_le 3) ?_
  intro k hk line
  have hcases : k = 0 ∨ k = 1 ∨ k = 2 ∨ k = 3 := by omega
  rcases hcases with rfl | rfl | rfl | rfl
  all_goals
    rw [dashLook_of_step rfl]
    exact ⟨rfl, rfl⟩

theorem lawful_restingParser : restingParser.Lawful := by
  refine lawful_dashWire rfl rfl (fun _ => rfl) rfl ?_
  rintro k rfl line
  rw [dashLook_of_step rfl]
  exact ⟨rfl, rfl⟩

/-! ## The two programs -/

variable (m : Mbedtls) (hse : HeatshrinkEncoder) (api : SstApi)

/-- Both programs, the states of their parsers and what is on the two lines. -/
structure Wired where
  pico : Pico
  challengeState : ℕ
  toPico : List UInt8
  dash : Dash
  uartState : ℕ
  toDash : List UInt8

inductive WiredIn where
  /-- The sender looks at uart1. -/
  | look (env : PicoEnv)
  /-- A line is typed at the sender. -/
  | line (env : PicoEnv) (text : List UInt8)
  /-- The receiver looks at its serial port. -/
  | pass (env : DashEnv)
  /-- A key is pressed at the receiver. -/
  | key (env : DashEnv) (key : KeyPress)
  /-- The deadline of the receiver's state has passed. -/
  | timeout (env : DashEnv)

inductive WiredOut where
  | picoRead (r : PicoReport)
  | dashRead (r : UartReport)
  | pico (o : PicoOut)
  | dash (o : DashOut)

namespace WiredOut

/-- What the sender puts on the light link. -/
def lifiBytes : WiredOut → List UInt8
  | pico o => o.lifiBytes
  | _ => []

/-- What the receiver puts on the serial line. -/
def txBytes : WiredOut → List UInt8
  | dash o => o.txBytes
  | _ => []

def picoReport : WiredOut → Option PicoReport
  | picoRead r => some r
  | _ => none

def dashReport : WiredOut → Option UartReport
  | dashRead r => some r
  | _ => none

end WiredOut

/-- The sender has reacted; what it sent is on the light link. -/
def Wired.fromPico (s : Wired) (r : Pico × List PicoOut) : Wired × List WiredOut :=
  ({ s with pico := r.1, toDash := s.toDash ++ r.2.flatMap PicoOut.lifiBytes },
    r.2.map .pico)

/-- The receiver has reacted; what it wrote is on the serial line. -/
def Wired.fromDash (s : Wired) (r : Dash × List DashOut) : Wired × List WiredOut :=
  ({ s with dash := r.1, toPico := s.toPico ++ r.2.flatMap DashOut.txBytes },
    r.2.map .dash)

def wiredStep (s : Wired) : WiredIn → Wired × List WiredOut
  | .look env =>
      let l := picoLook s.challengeState s.toPico
      let r := { s with challengeState := l.2.1, toPico := l.2.2 }.fromPico
        (handlePicoReport m env l.1 s.pico)
      (r.1, .picoRead l.1 :: r.2)
  | .line env text => s.fromPico (handleLine m hse env text s.pico)
  | .pass env =>
      if s.dash.fdOpen then
        let l := dashLook s.uartState s.toDash
        let r := { s with uartState := l.2.1, toDash := l.2.2 }.fromDash
          (handleReport m api env l.1 s.dash)
        (r.1, .dashRead l.1 :: r.2)
      else (s, [])
  | .key env key => s.fromDash (handleKey api env key s.dash)
  | .timeout _ => s.fromDash (handleTimeout s.dash, [])

def wired : Machine Wired WiredIn WiredOut where
  step := wiredStep m hse api

/-! ## Whole frames -/

/-- The bytes are those of whole frames to the sender. -/
def WholePicoFrames (bytes : List UInt8) : Prop :=
  ∃ fs : List PicoFrame, bytes = fs.flatMap PicoFrame.bytes

/-- The bytes are those of whole frames to the receiver. -/
def WholeLifiFrames (bytes : List UInt8) : Prop :=
  ∃ fs : List LifiFrame, bytes = fs.flatMap LifiFrame.bytes

/-- All but KEY frames. -/
def PicoFrame.OfHandshake : PicoFrame → Prop
  | .hs1 _ | .hs3 _ => True
  | .key _ _ _ => False

/-- The bytes are those of messages of a handshake. -/
def HandshakeFrames (bytes : List UInt8) : Prop :=
  ∃ fs : List PicoFrame, bytes = fs.flatMap PicoFrame.bytes ∧ ∀ f ∈ fs, f.OfHandshake

theorem HandshakeFrames.whole {bytes : List UInt8} (h : HandshakeFrames bytes) :
    WholePicoFrames bytes := by
  obtain ⟨fs, hbytes, -⟩ := h
  exact ⟨fs, hbytes⟩

theorem handshakeFrames_nil : HandshakeFrames [] := ⟨[], rfl, List.forall_mem_nil _⟩

theorem handshakeFrames_one {f : PicoFrame} (h : f.OfHandshake) : HandshakeFrames f.bytes :=
  ⟨[f], (List.flatMap_singleton ..).symm, List.forall_mem_singleton.mpr h⟩

theorem wholePicoFrames_nil : WholePicoFrames [] := ⟨[], rfl⟩

theorem wholePicoFrames_one (f : PicoFrame) : WholePicoFrames f.bytes :=
  ⟨[f], (List.flatMap_singleton ..).symm⟩

theorem wholeLifiFrames_nil : WholeLifiFrames [] := ⟨[], rfl⟩

theorem wholeLifiFrames_one (f : LifiFrame) : WholeLifiFrames f.bytes :=
  ⟨[f], (List.flatMap_singleton ..).symm⟩

section

variable {api} {env : DashEnv}

/-- Every write succeeds. -/
def DashEnv.Writes (env : DashEnv) : Prop :=
  ∀ i, env.writes i = none

/-- What `parse_handshake_1` made is sent if it has the size of a first message. -/
theorem handshakeFrames_startHandshake (hwrites : env.Writes) (d : Dash) :
    HandshakeFrames ((startHandshake api env d).2.flatMap DashOut.txBytes) := by
  simp only [startHandshake]
  split
  · exact handshakeFrames_nil
  · next hs1 _ =>
      split
      · exact handshakeFrames_nil
      · next hlen =>
          rw [writeChain_of_writes hwrites, if_pos rfl]
          have hsize : hs1.length = sstHs1PayloadSize := not_ne_iff.mp hlen
          have hframe : HandshakeFrames (txHeader msgTypeSstHs1 sstHs1PayloadSize ++ hs1) :=
            handshakeFrames_one (f := .hs1 ⟨hs1, hsize⟩) trivial
          simpa [DashOut.txBytes, hsize] using hframe

/-- So is what `check_handshake_2_send_handshake_3` made. -/
theorem handshakeFrames_handleSstHs2 (hwrites : env.Writes) (hs2 : Bytes 80) (d : Dash) :
    HandshakeFrames ((handleSstHs2 api env hs2 d).2.flatMap DashOut.txBytes) := by
  simp only [handleSstHs2]
  split
  · exact handshakeFrames_nil
  · simp only
    split
    · exact handshakeFrames_nil
    · next hs3 _ =>
        split
        · next hlen =>
            rw [writeEach_of_writes hwrites]
            have hframe : HandshakeFrames (txHeader msgTypeSstHs3 sstHs3PayloadSize ++ hs3) :=
              handshakeFrames_one (f := .hs3 ⟨hs3, hlen⟩) trivial
            simpa [DashOut.txBytes, hlen] using hframe
        · exact handshakeFrames_nil

/-- Key `1` at an open port writes the active key as one frame. -/
theorem bytes_sendActiveKey (hwrites : env.Writes) {d : Dash} (hopen : d.fdOpen = true) :
    (sendActiveKey env d).flatMap DashOut.txBytes =
      (PicoFrame.key d.sKey.keyId d.sKey.aesKey d.sKey.macKey).bytes := by
  rw [sendActiveKey, if_pos hopen, writeChain_of_writes hwrites]
  exact List.append_nil _

theorem wholePicoFrames_sendActiveKey (hwrites : env.Writes) (d : Dash) :
    WholePicoFrames ((sendActiveKey env d).flatMap DashOut.txBytes) := by
  by_cases hopen : d.fdOpen = true
  · rw [bytes_sendActiveKey hwrites hopen]
    exact wholePicoFrames_one _
  · rw [sendActiveKey, if_neg hopen]
    exact wholePicoFrames_nil

theorem wholePicoFrames_handleKeyIdOnly (hwrites : env.Writes) (payload : List UInt8)
    (d : Dash) :
    WholePicoFrames ((handleKeyIdOnly api env payload d).2.flatMap DashOut.txBytes) := by
  rw [handleKeyIdOnly]
  split
  · exact wholePicoFrames_nil
  · rw [autoConnect]
    split
    · exact (handshakeFrames_startHandshake hwrites _).whole
    · exact wholePicoFrames_nil

theorem wholePicoFrames_handleMessage (hwrites : env.Writes) (decrypted : List UInt8)
    (d : Dash) :
    WholePicoFrames ((handleMessage api env decrypted d).2.flatMap DashOut.txBytes) := by
  rcases handleMessage_cases api env decrypted d with h | h | h | ⟨-, h⟩ | h
  · rw [h]
    exact wholePicoFrames_nil
  · rw [h, handleNewKeyForced]
    split
    · exact wholePicoFrames_nil
    · exact wholePicoFrames_nil
    · next k _ _ =>
        rw [writeEach_of_writes hwrites]
        have hframe := wholePicoFrames_one (.key k.keyId (aesKeyOf k.cipherKey) k.macKey)
        simpa [DashOut.txBytes, PicoFrame.bytes, keyFrame] using hframe
  · rw [h]
    exact wholePicoFrames_nil
  · rw [h]
    exact wholePicoFrames_nil
  · rw [h, handleVerifyKey]
    split
    · exact (handshakeFrames_startHandshake hwrites d).whole
    · exact wholePicoFrames_nil

theorem wholePicoFrames_handleReport (m : Mbedtls) (api : SstApi) (hwrites : env.Writes)
    (r : UartReport) (d : Dash) :
    WholePicoFrames ((handleReport m api env r d).2.flatMap DashOut.txBytes) := by
  cases r with
  | frame f =>
      cases f with
      | keyIdOnly payload _ => exact wholePicoFrames_handleKeyIdOnly hwrites payload _
      | sstHs2 hs2 => exact (handshakeFrames_handleSstHs2 hwrites hs2 _).whole
      | data t nonce ciphertext tag =>
          simp only [handleReport, handleFrame, handleData]
          split
          · exact wholePicoFrames_nil
          · rw [decryptData]
            split
            · split
              · exact wholePicoFrames_nil
              · cases t with
                | file => exact wholePicoFrames_nil
                | encrypted => exact wholePicoFrames_handleMessage hwrites _ _
            · exact wholePicoFrames_nil
  | crcFail type =>
      simp only [handleReport]
      split
      · exact wholePicoFrames_nil
      · exact wholePicoFrames_nil
  | _ => exact wholePicoFrames_nil

theorem wholePicoFrames_handleKey (hwrites : env.Writes) (key : KeyPress) (d : Dash) :
    WholePicoFrames ((handleKey api env key d).2.flatMap DashOut.txBytes) := by
  cases key with
  | one =>
      simp only [handleKey]
      split
      · exact wholePicoFrames_sendActiveKey hwrites d
      · exact wholePicoFrames_nil
  | f remote =>
      simp only [handleKey]
      rcases handleForce_cases env remote d with ⟨keys, h⟩ | ⟨k, keys, h⟩
      · rw [h]
        exact wholePicoFrames_nil
      · rw [h]
        exact wholePicoFrames_sendActiveKey hwrites _
  | two =>
      simp only [handleKey]
      split
      · exact (handshakeFrames_startHandshake hwrites d).whole
      · exact wholePicoFrames_nil
  | _ => exact wholePicoFrames_nil

end

section

variable {m hse} {env : PicoEnv}

theorem wholeLifiFrames_handlePicoReport (m : Mbedtls) (env : PicoEnv) (r : PicoReport)
    (p : Pico) :
    WholeLifiFrames ((handlePicoReport m env r p).2.flatMap PicoOut.lifiBytes) := by
  cases r with
  | hs1 payload =>
      rw [handlePicoReport]
      rcases handleHs1_cases m env payload p with h | ⟨entityNonce, hs2Blob, -, -, h⟩
      · rw [h]
        exact wholeLifiFrames_nil
      · rw [h, List.flatMap_singleton]
        exact wholeLifiFrames_one (.sstHs2 hs2Blob)
  | hs3 payload =>
      rw [handlePicoReport]
      rcases handleHs3_cases m payload p with h | ⟨plain, -, -, h⟩
      · rw [h]
        exact wholeLifiFrames_nil
      · rw [h]
        exact wholeLifiFrames_nil
  | key newId newKey newMacKey =>
      simp only [handlePicoReport, handleKeyFrame, picoNonceOnKeyChange, picoNonceInit]
      split
      · exact wholeLifiFrames_nil
      · exact wholeLifiFrames_nil
  | _ => exact wholeLifiFrames_nil

/-- What is not compressed goes out as it was typed. -/
theorem autoCompress_encrypted (alloc : Bool) (text : List UInt8)
    (h : (autoCompress hse alloc text).1 = .encrypted) :
    (autoCompress hse alloc text).2 = text := by
  simp only [autoCompress] at h ⊢
  split at h
  · next hlong =>
      rw [if_pos hlong]
      split at h
      · cases h
      · next hnot => rw [if_neg hnot]
  · next hshort => rw [if_neg hshort]

/-- A message that fits a frame as it goes out is sent as one. -/
theorem wholeLifiFrames_handleLine {text : List UInt8}
    (hfits : (autoCompress hse env.encoderAlloc text).2.length ≤ maxCtextLen) (p : Pico) :
    WholeLifiFrames ((handleLine m hse env text p).2.flatMap PicoOut.lifiBytes) := by
  rw [handleLine]
  split
  · simp only [handleCommandLine]
    split
    · rw [List.flatMap_singleton]
      exact wholeLifiFrames_one (.keyIdOnly p.sessionKeyId)
    · split
      · simp only [picoNonceOnKeyChange, picoNonceInit]
        split
        · exact wholeLifiFrames_nil
        · exact wholeLifiFrames_nil
      · exact wholeLifiFrames_nil
  · simp only [handleMessageLine]
    split
    · exact wholeLifiFrames_nil
    · split
      · exact wholeLifiFrames_nil
      · rcases encryptAndSend_cases m (autoCompress hse env.encoderAlloc text).1
          (autoCompress hse env.encoderAlloc text).2 p with ⟨-, h⟩ | ⟨ciphertext, tag, -, h⟩
        · rw [h]
          exact wholeLifiFrames_nil
        · have hlen : ciphertext.toList.length ≤ maxCtextLen :=
            ciphertext.toList_length.trans_le hfits
          rw [h]
          have hframe := wholeLifiFrames_one (.data
            (autoCompress hse env.encoderAlloc text).1 (picoNonceGenerate p).1
            ⟨ciphertext.toList, hlen⟩ tag)
          simpa [PicoOut.lifiBytes, LifiFrame.bytes] using hframe

end

/-! ## Two queues of frames -/

/-- The two commands that read uart1 themselves. -/
def WaitsOnUart1 (text : List UInt8) : Prop :=
  text = ascii "CMD: new key" ∨ text = ascii "CMD: new key -f"

/-- What is sent fits a frame, writes succeed, and uart1 and the serial port are left to
the parsers. -/
def WiredIn.Sound : WiredIn → Prop
  | .look _ => True
  | .line env text => ¬ WaitsOnUart1 text ∧
      (autoCompress hse env.encoderAlloc text).2.length ≤ maxCtextLen
  | .pass env => env.Writes
  | .key env pressed => env.Writes ∧ pressed ≠ .r
  | .timeout _ => True

/-- Nothing is on the lines, and the parsers hunt for a preamble. -/
structure Wired.Drained (s : Wired) : Prop where
  toPico : s.toPico = []
  toDash : s.toDash = []
  challengeState : s.challengeState ≤ 3
  uartState : s.uartState ≤ 3

/-- Both lines are queues of the frames that were put on them, as the parsers see them. -/
structure InStep (quiet : UartReport → Bool) (hunting : ℕ → Prop) (t : List WiredOut)
    (s : Wired) : Prop where
  toPico : picoParser.Carried (t.flatMap WiredOut.txBytes)
    (t.filterMap WiredOut.picoReport) s.challengeState s.toPico
  toDash : (dashWire quiet hunting).Carried (t.flatMap WiredOut.lifiBytes)
    (t.filterMap WiredOut.dashReport) s.uartState s.toDash

section

variable {m hse api} {s s' : Wired} {t : List WiredOut} {quiet : UartReport → Bool}
  {hunting : ℕ → Prop}

theorem inStep_start (h : s.Drained) (hstart : hunting s.uartState) :
    InStep quiet hunting [] s where
  toPico := by
    rw [h.toPico]
    exact FrameParser.carried_start h.challengeState
  toDash := by
    rw [h.toDash]
    exact FrameParser.carried_start hstart

theorem flatMap_txBytes_pico (out : List PicoOut) :
    (out.map WiredOut.pico).flatMap WiredOut.txBytes = [] := by
  rw [List.flatMap_map]
  exact List.flatMap_eq_nil_iff.mpr fun _ _ => rfl

theorem flatMap_lifiBytes_dash (out : List DashOut) :
    (out.map WiredOut.dash).flatMap WiredOut.lifiBytes = [] := by
  rw [List.flatMap_map]
  exact List.flatMap_eq_nil_iff.mpr fun _ _ => rfl

theorem filterMap_report_pico (out : List PicoOut) :
    (out.map WiredOut.pico).filterMap WiredOut.picoReport = [] ∧
      (out.map WiredOut.pico).filterMap WiredOut.dashReport = [] :=
  ⟨filterMap_map_eq_nil fun _ _ => rfl, filterMap_map_eq_nil fun _ _ => rfl⟩

theorem filterMap_report_dash (out : List DashOut) :
    (out.map WiredOut.dash).filterMap WiredOut.picoReport = [] ∧
      (out.map WiredOut.dash).filterMap WiredOut.dashReport = [] :=
  ⟨filterMap_map_eq_nil fun _ _ => rfl, filterMap_map_eq_nil fun _ _ => rfl⟩

/-- What the sender sends comes after what is on the light link. -/
theorem InStep.fromPico (h : InStep quiet hunting t s) {r : Pico × List PicoOut}
    (hwhole : WholeLifiFrames (r.2.flatMap PicoOut.lifiBytes)) :
    InStep quiet hunting (t ++ (s.fromPico r).2) (s.fromPico r).1 := by
  obtain ⟨fs, hfs⟩ := hwhole
  have hsent : (r.2.map WiredOut.pico).flatMap WiredOut.lifiBytes =
      fs.flatMap LifiFrame.bytes := by
    rw [List.flatMap_map]
    exact hfs
  obtain ⟨hpico, hdash⟩ := filterMap_report_pico r.2
  constructor
  · simp only [Wired.fromPico, List.flatMap_append, List.filterMap_append,
      flatMap_txBytes_pico, hpico, List.append_nil]
    exact h.toPico
  · simp only [Wired.fromPico, List.flatMap_append, List.filterMap_append, hsent, hdash,
      List.append_nil, hfs]
    exact h.toDash.put fs

/-- What the receiver writes comes after what is on the serial line. -/
theorem InStep.fromDash (h : InStep quiet hunting t s) {r : Dash × List DashOut}
    (hwhole : WholePicoFrames (r.2.flatMap DashOut.txBytes)) :
    InStep quiet hunting (t ++ (s.fromDash r).2) (s.fromDash r).1 := by
  obtain ⟨fs, hfs⟩ := hwhole
  have hsent : (r.2.map WiredOut.dash).flatMap WiredOut.txBytes =
      fs.flatMap PicoFrame.bytes := by
    rw [List.flatMap_map]
    exact hfs
  obtain ⟨hpico, hdash⟩ := filterMap_report_dash r.2
  constructor
  · simp only [Wired.fromDash, List.flatMap_append, List.filterMap_append, hsent, hpico,
      List.append_nil, hfs]
    exact h.toPico.put fs
  · simp only [Wired.fromDash, List.flatMap_append, List.filterMap_append,
      flatMap_lifiBytes_dash, hdash, List.append_nil]
    exact h.toDash

/-- A look of the sender takes the frames off in order. -/
theorem InStep.picoRead (h : InStep quiet hunting t s) :
    InStep quiet hunting (t ++ [.picoRead (picoLook s.challengeState s.toPico).1])
      { s with
        challengeState := (picoLook s.challengeState s.toPico).2.1
        toPico := (picoLook s.challengeState s.toPico).2.2 } where
  toPico := by
    rw [List.flatMap_append, List.filterMap_append]
    have hquiet : t.flatMap WiredOut.txBytes ++ [WiredOut.picoRead
        (picoLook s.challengeState s.toPico).1].flatMap WiredOut.txBytes =
          t.flatMap WiredOut.txBytes := List.append_nil _
    rw [hquiet]
    exact h.toPico.look lawful_picoParser
  toDash := by
    rw [List.flatMap_append, List.filterMap_append]
    have hquiet : t.flatMap WiredOut.lifiBytes ++ [WiredOut.picoRead
        (picoLook s.challengeState s.toPico).1].flatMap WiredOut.lifiBytes =
          t.flatMap WiredOut.lifiBytes := List.append_nil _
    rw [hquiet]
    exact (List.append_nil (t.filterMap WiredOut.dashReport)).symm ▸ h.toDash

/-- A look of the receiver does the same on its line. -/
theorem InStep.dashRead (hlawful : (dashWire quiet hunting).Lawful)
    (h : InStep quiet hunting t s) :
    InStep quiet hunting (t ++ [.dashRead (dashLook s.uartState s.toDash).1])
      { s with
        uartState := (dashLook s.uartState s.toDash).2.1
        toDash := (dashLook s.uartState s.toDash).2.2 } where
  toPico := by
    rw [List.flatMap_append, List.filterMap_append]
    have hquiet : t.flatMap WiredOut.txBytes ++ [WiredOut.dashRead
        (dashLook s.uartState s.toDash).1].flatMap WiredOut.txBytes =
          t.flatMap WiredOut.txBytes := List.append_nil _
    rw [hquiet]
    exact (List.append_nil (t.filterMap WiredOut.picoReport)).symm ▸ h.toPico
  toDash := by
    rw [List.flatMap_append, List.filterMap_append]
    have hquiet : t.flatMap WiredOut.lifiBytes ++ [WiredOut.dashRead
        (dashLook s.uartState s.toDash).1].flatMap WiredOut.lifiBytes =
          t.flatMap WiredOut.lifiBytes := List.append_nil _
    rw [hquiet]
    exact h.toDash.look hlawful

theorem InStep.step (hlawful : (dashWire quiet hunting).Lawful)
    (h : InStep quiet hunting t s) {i : WiredIn} (hi : WiredIn.Sound hse i) :
    InStep quiet hunting (t ++ (wiredStep m hse api s i).2) (wiredStep m hse api s i).1 := by
  cases i with
  | look env =>
      have hwhole := wholeLifiFrames_handlePicoReport m env
        (picoLook s.challengeState s.toPico).1 s.pico
      have hreacted := h.picoRead.fromPico hwhole
      rwa [List.append_assoc] at hreacted
  | line env text => exact h.fromPico (wholeLifiFrames_handleLine hi.2 s.pico)
  | pass env =>
      rw [wiredStep]
      split
      · have hwhole := wholePicoFrames_handleReport m api hi
          (dashLook s.uartState s.toDash).1 s.dash
        have hreacted := (h.dashRead hlawful).fromDash hwhole
        rwa [List.append_assoc] at hreacted
      · rwa [List.append_nil]
  | key env pressed => exact h.fromDash (wholePicoFrames_handleKey hi.1 pressed s.dash)
  | timeout env => exact h.fromDash wholePicoFrames_nil

theorem inStep_of_reach (hlawful : (dashWire quiet hunting).Lawful) (hs : s.Drained)
    (hstart : hunting s.uartState)
    (h : (wired m hse api).Reach (fun _ _ i => WiredIn.Sound hse i) s t s') :
    InStep quiet hunting t s' :=
  h.invariant (inStep_start hs hstart) fun _ _ _ hin hi => hin.step hlawful hi

/-- A receiver that starts between two preambles meets no broken one. -/
theorem preambles_unbroken (hs : s.Drained) (hstart : s.uartState = 0)
    (h : (wired m hse api).Reach (fun _ _ i => WiredIn.Sound hse i) s t s') (pos : ℕ)
    (got : UInt8) : .preambleBroke pos got ∉ t.filterMap WiredOut.dashReport := by
  intro hbroke
  have hsteps := inStep_of_reach lawful_restingParser hs hstart h
  obtain ⟨fs, -, hreported, -⟩ := hsteps.toDash.reported lawful_restingParser
  have hloud : .preambleBroke pos got ∈
      (t.filterMap WiredOut.dashReport).filter fun r => !r.unbroken :=
    List.mem_filter.mpr ⟨hbroke, rfl⟩
  obtain ⟨f, -, hframe⟩ := List.mem_map.mp (hreported.subset hloud)
  cases hframe

/-- However the steps of the two programs are interleaved, each parser hands on the frames
that the other side wrote, unchanged and in order, and nothing else: none is lost, none
comes twice, and no error path is ever taken; nor does a preamble break at a receiver that
starts between two of them. -/
theorem frames_arrive_in_order (hs : s.Drained)
    (h : (wired m hse api).Reach (fun _ _ i => WiredIn.Sound hse i) s t s') :
    (∃ toPico : List PicoFrame, t.flatMap WiredOut.txBytes = toPico.flatMap PicoFrame.bytes ∧
      let reports := (t.filterMap WiredOut.picoReport).filter fun r => !decide (r = .quiet)
      reports <+: toPico.map PicoFrame.report ∧
        (s'.toPico = [] → reports = toPico.map PicoFrame.report)) ∧
    (∃ toDash : List LifiFrame, t.flatMap WiredOut.lifiBytes = toDash.flatMap LifiFrame.bytes ∧
      let reports := (t.filterMap WiredOut.dashReport).filter fun r => !r.hunting
      reports <+: toDash.map (fun f => .frame f.received) ∧
        (s'.toDash = [] → reports = toDash.map fun f => .frame f.received)) ∧
    (s.uartState = 0 → ∀ pos got, .preambleBroke pos got ∉ t.filterMap WiredOut.dashReport) := by
  have hsteps := inStep_of_reach lawful_dashParser hs hs.uartState h
  exact ⟨hsteps.toPico.reported lawful_picoParser, hsteps.toDash.reported lawful_dashParser,
    fun hstart => preambles_unbroken hs hstart h⟩

end

/-! ## One run -/

/-- Sender and receiver with the same key, and nothing on the lines. -/
def wiredStart : Wired where
  pico := bothKeyed.1
  challengeState := 0
  toPico := []
  dash := bothKeyed.2
  uartState := 0
  toDash := []

/-- A key that the two do not have. -/
def otherKey : SessionKey where
  keyId := List.Vector.replicate 8 6
  cipherKey := List.Vector.replicate 32 8
  macKey := List.Vector.replicate 32 10

theorem drained_wiredStart : wiredStart.Drained :=
  ⟨rfl, rfl, Nat.zero_le 3, Nat.zero_le 3⟩

theorem writes_bare : DashEnv.bare.Writes := fun _ => rfl

/-- The two programs with readable primitives. -/
def openWire : Machine Wired WiredIn WiredOut :=
  wired Mbedtls.transparent .idle (SstApi.reference Mbedtls.transparent)

/-- Key `2`, and the sender looks until it has the message. -/
def knock : List WiredIn :=
  .key DashEnv.bare .two :: List.replicate 5 (.look .salted)

/-- The sender is told of the one frame that the receiver wrote. -/
theorem frames_arrive_in_order_knock :
    ∃ toPico : List PicoFrame,
      (openWire.trace wiredStart knock).flatMap WiredOut.txBytes =
          toPico.flatMap PicoFrame.bytes ∧
        ((openWire.trace wiredStart knock).filterMap WiredOut.picoReport).filter
          (fun r => !decide (r = .quiet)) = toPico.map PicoFrame.report := by
  have hreach : openWire.Reach (fun _ _ i => WiredIn.Sound .idle i) wiredStart
      (openWire.trace wiredStart knock) (openWire.run wiredStart knock) :=
    Machine.reach_run knock
      ⟨⟨writes_bare, KeyPress.noConfusion⟩, trivial, trivial, trivial, trivial, trivial, trivial⟩
  obtain ⟨⟨toPico, hbytes, -, hall⟩, -⟩ := frames_arrive_in_order drained_wiredStart hreach
  exact ⟨toPico, hbytes, hall (by decide +kernel)⟩

end LifiAuth
