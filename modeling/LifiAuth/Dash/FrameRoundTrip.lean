import LifiAuth.Dash.Uart

/-!
# Frames survive the serial line

What the sender emits is what the receiver's parser hands on: on a line that
carries emitted frames with noise around them, and on which no read times out, the
parser reports exactly those frames, in order.  The hunt is handled by the pattern
library; the noise may end in any part of a preamble because the preamble's first
byte does not occur again in it.
-/

namespace LifiAuth

open Support

/-! ## Reading one emitted frame -/

theorem be16Of_lenBytes {n : ℕ} (hn : n < 65536) :
    (be16Of (lenBytes n)).toNat = n := by
  have hbytes : be16Of (lenBytes n) =
      be16 (UInt8.ofNat (n >>> 8)) (UInt8.ofNat n) := rfl
  rw [hbytes, be16_toNat]
  simp only [UInt8.toNat_ofNat', Nat.shiftRight_eq_div_pow]
  omega

/-- A frame sent in one piece passes the checks of its branch. -/
theorem readShort_of_carries (type : UInt8) (accepts : ℕ → Bool)
    (mk : (payload : List UInt8) → accepts payload.length = true → Frame)
    (payload : List UInt8) (hlen : payload.length < 65536)
    (hok : accepts payload.length = true)
    {line : List RxEvent} {rest : List UInt8}
    (h : Carries line ((lenBytes payload.length).toList ++ (payload ++
      ((crcBytes ([type] ++ (lenBytes payload.length).toList ++
        payload)).toList ++ rest)))) :
    ∃ line', readShort type accepts mk line = (.frame (mk payload hok), line') ∧
      Carries line' rest ∧ line'.length ≤ line.length := by
  have hbe := be16Of_lenBytes hlen
  obtain ⟨line₁, hread₁, h₁, hle₁⟩ := readExact_of_carries _ h
  obtain ⟨line₂, hread₂, h₂, hle₂⟩ := readExact_of_carries
    (⟨payload, hbe.symm⟩ : Bytes (be16Of (lenBytes payload.length)).toNat) h₁
  obtain ⟨line₃, hread₃, h₃, hle₃⟩ := readExact_of_carries _ h₂
  refine ⟨line₃, ?_, h₃, by omega⟩
  have haccepts :
      accepts (be16Of (lenBytes payload.length)).toNat = true := by
    rw [hbe]
    exact hok
  have hcrc (buf : List UInt8) : be16Of (crcBytes buf) = crc16Ccitt buf :=
    be16Of_be16Bytes _
  simp only [readShort, hread₁]
  rw [dif_pos haccepts]
  simp only [hread₂, hread₃, hcrc]
  exact if_neg (not_not_intro rfl)

/-- So does an encrypted frame. -/
theorem readData_of_carries (t : DataType) (nonce : Bytes 12) (ctext : Ctext)
    (tag : Bytes 16) {line : List RxEvent} {rest : List UInt8}
    (h : Carries line
      ((lenBytes (LifiFrame.data t nonce ctext tag).payload.length).toList ++
        ((LifiFrame.data t nonce ctext tag).payload ++
          ((crcBytes ([t.byte] ++
            (lenBytes (LifiFrame.data t nonce ctext tag).payload.length).toList ++
            (LifiFrame.data t nonce ctext tag).payload)).toList ++ rest)))) :
    ∃ line', readData t line = (.frame (.data t nonce ctext tag), line') ∧
      Carries line' rest ∧ line'.length ≤ line.length := by
  obtain ⟨ctext, hctext⟩ := ctext
  have hmax : maxCtextLen = 8164 := by decide
  have hsize : (LifiFrame.data t nonce ⟨ctext, hctext⟩ tag).payload.length =
      sstNonceSize + ctext.length + sstTagSize := by
    simp [LifiFrame.payload, sstNonceSize, sstTagSize, Nat.add_assoc]
  rw [hsize] at h
  simp only [LifiFrame.payload, List.append_assoc] at h
  have hbe : (be16Of
      (lenBytes (sstNonceSize + ctext.length + sstTagSize))).toNat =
        sstNonceSize + ctext.length + sstTagSize :=
    be16Of_lenBytes (by simp only [sstNonceSize, sstTagSize]; omega)
  have hclen : ctext.length = (be16Of
      (lenBytes (sstNonceSize + ctext.length + sstTagSize))).toNat -
        sstNonceSize - sstTagSize := by
    rw [hbe]
    omega
  obtain ⟨line₁, hread₁, h₁, hle₁⟩ := readExact_of_carries _ h
  obtain ⟨line₂, hread₂, h₂, hle₂⟩ := readExact_of_carries nonce h₁
  obtain ⟨line₃, hread₃, h₃, hle₃⟩ :=
    readExact_of_carries (⟨ctext, hclen⟩ : Bytes _) h₂
  obtain ⟨line₄, hread₄, h₄, hle₄⟩ := readExact_of_carries tag h₃
  obtain ⟨line₅, hread₅, h₅, hle₅⟩ := readExact_of_carries _ h₄
  refine ⟨line₅, ?_, h₅, by omega⟩
  have hrange : ¬ (sstNonceSize + ctext.length + sstTagSize <
      sstNonceSize + sstTagSize ∨
      sstNonceSize + ctext.length + sstTagSize > maxMsgLen) := by
    simp only [sstNonceSize, sstTagSize, maxMsgLen]
    omega
  rw [← hbe] at hrange
  have hcrc (buf : List UInt8) : be16Of (crcBytes buf) = crc16Ccitt buf :=
    be16Of_be16Bytes _
  simp only [readData, hread₁]
  rw [dif_neg hrange]
  simp only [hread₂, hread₃, hread₄, hread₅, hcrc]
  rw [if_neg]
  · rfl
  · refine not_not_intro (congrArg crc16Ccitt ?_)
    simp

/-- The frame as the receiver holds it. -/
def LifiFrame.received : LifiFrame → Frame
  | keyIdOnly payload =>
      .keyIdOnly payload.toList (by rw [payload.toList_length]; decide)
  | sstHs2 hs2Blob => .sstHs2 hs2Blob
  | data t nonce ctext tag => .data t nonce ctext tag

@[simp] theorem LifiFrame.received_type (f : LifiFrame) :
    f.received.type = f.type := by
  cases f <;> rfl

@[simp] theorem LifiFrame.received_payload (f : LifiFrame) :
    f.received.payload = f.payload := by
  cases f <;> rfl

/-- The type byte selects the branch that reads what follows it back. -/
theorem readFrame_of_carries (f : LifiFrame) {line : List RxEvent}
    (rest : List UInt8)
    (h : Carries line ((lenBytes f.payload.length).toList ++ (f.payload ++
      ((crcBytes ([f.type] ++ (lenBytes f.payload.length).toList ++
        f.payload)).toList ++ rest)))) :
    ∃ line', readFrame f.type line = (.frame f.received, line') ∧
      Carries line' rest ∧ line'.length ≤ line.length := by
  cases f with
  | keyIdOnly payload =>
      have hlen : payload.toList.length = 8 := payload.toList_length
      exact readShort_of_carries msgTypeKeyIdOnly (fun n => decide (n ≤ 64))
        (fun payload h => .keyIdOnly payload (of_decide_eq_true h))
        payload.toList (by omega) (decide_eq_true (by omega)) h
  | sstHs2 hs2Blob =>
      have hlen : hs2Blob.toList.length = 80 := hs2Blob.toList_length
      exact readShort_of_carries msgTypeSstHs2
        (fun n => decide (n = sstHs2PayloadSize))
        (fun payload h => .sstHs2 ⟨payload, of_decide_eq_true h⟩)
        hs2Blob.toList (by omega) (decide_eq_true hlen) h
  | data t nonce ctext tag =>
      obtain ⟨line', hread, hrest⟩ := readData_of_carries t nonce ctext tag h
      refine ⟨line', ?_, hrest⟩
      cases t with
      | encrypted => exact hread
      | file => exact hread

/-! ## Hunting -/

/-- Below state four the parser is the library's hunt for the preamble. -/
theorem uartByte_hunt {k : ℕ} (hk : k < 4) (b : UInt8) (line : List RxEvent) :
    ∃ r, uartByte k b line = (r, ⟨huntStep preamble k b, line⟩) ∧
      r.hunting = true := by
  have hcases : k = 0 ∨ k = 1 ∨ k = 2 ∨ k = 3 := by omega
  rcases hcases with rfl | rfl | rfl | rfl
  · refine ⟨.quiet, ?_, rfl⟩
    by_cases hb : b = preambleByte1
    · simp [uartByte, huntStep, preamble, hb]
    · simp [uartByte, huntStep, preamble, hb, Ne.symm hb]
  · by_cases hb : b = preambleByte2
    · exact ⟨.quiet, by simp [uartByte, huntStep, preamble, hb], rfl⟩
    · refine ⟨.preambleBroke 2 b, ?_, rfl⟩
      simp [uartByte, uartRestart, huntStep, preamble, hb, eq_comm]
  · by_cases hb : b = preambleByte3
    · exact ⟨.quiet, by simp [uartByte, huntStep, preamble, hb], rfl⟩
    · refine ⟨.preambleBroke 3 b, ?_, rfl⟩
      simp [uartByte, uartRestart, huntStep, preamble, hb, eq_comm]
  · by_cases hb : b = preambleByte4
    · exact ⟨.preambleOk, by simp [uartByte, huntStep, preamble, hb], rfl⟩
    · refine ⟨.preambleBroke 4 b, ?_, rfl⟩
      simp [uartByte, uartRestart, huntStep, preamble, hb, eq_comm]

theorem uartRun_add (m n : ℕ) (u : Uart) :
    uartRun (m + n) u = ((uartRun m u).1 ++ (uartRun n (uartRun m u).2).1,
      (uartRun n (uartRun m u).2).2) := by
  induction m generalizing u with
  | zero => simp [uartRun]
  | succ m ih =>
      rw [Nat.succ_add]
      simp [uartRun, ih]

@[simp] theorem length_uartRun (n : ℕ) (u : Uart) :
    (uartRun n u).1.length = n := by
  induction n generalizing u with
  | zero => rfl
  | succ n ih => simp [uartRun, ih]

/-- Passes over a stretch that does not complete the preamble before its last
byte only hunt. -/
theorem uartRun_hunt {k : ℕ} (w : List UInt8)
    (hk : ∀ i < w.length, hunt preamble k (w.take i) < 4)
    {line : List RxEvent} (rest : List UInt8)
    (h : Carries line (w ++ rest)) :
    ∃ m line', (uartRun m ⟨k, line⟩).2 = ⟨hunt preamble k w, line'⟩ ∧
      (∀ r ∈ (uartRun m ⟨k, line⟩).1, r.hunting = true) ∧
      Carries line' rest ∧ line'.length + m ≤ line.length := by
  induction line generalizing k w with
  | nil =>
      have hnil : w ++ rest = [] := by
        cases hw : w ++ rest with
        | nil => rfl
        | cons b l => rw [hw] at h; cases h
      obtain ⟨rfl, rfl⟩ := List.append_eq_nil_iff.mp hnil
      exact ⟨0, [], rfl, by simp [uartRun], .nil, by simp⟩
  | cons e line ih =>
      cases w with
      | nil => exact ⟨0, e :: line, rfl, by simp [uartRun], h, by simp⟩
      | cons b w =>
          cases h with
          | byte _ h =>
              have hk0 : k < 4 := by simpa using hk 0 (by simp)
              obtain ⟨r, hstep, hr⟩ := uartByte_hunt hk0 b line
              obtain ⟨m, line', hstate, hreports, hrest, hle⟩ :=
                ih w (k := huntStep preamble k b) (fun i hi => by
                  simpa using hk (i + 1) (by simpa using hi)) h
              have hiter : uartIter ⟨k, .byte b :: line⟩ =
                  (r, ⟨huntStep preamble k b, line⟩) := hstep
              refine ⟨m + 1, line', ?_, ?_, hrest, ?_⟩
              · simpa [uartRun, hiter] using hstate
              · simpa [uartRun, hiter, hr] using hreports
              · simp only [List.length_cons]
                omega
          | idle h =>
              obtain ⟨m, line', hstate, hreports, hrest, hle⟩ := ih _ hk h
              have hiter : uartIter ⟨k, .idle :: line⟩ = (.quiet, ⟨k, line⟩) :=
                rfl
              refine ⟨m + 1, line', ?_, ?_, hrest, ?_⟩
              · simpa [uartRun, hiter] using hstate
              · simpa [uartRun, hiter, UartReport.hunting] using hreports
              · simp only [List.length_cons]
                omega

/-- Idle passes until the next byte is at the head of the line. -/
theorem uartRun_idle (k : ℕ) {b : UInt8} {line : List RxEvent}
    {rest : List UInt8} (h : Carries line (b :: rest)) :
    ∃ m line', (uartRun m ⟨k, line⟩).2 = ⟨k, .byte b :: line'⟩ ∧
      (∀ r ∈ (uartRun m ⟨k, line⟩).1, r.hunting = true) ∧
      Carries line' rest ∧ line'.length + 1 + m ≤ line.length := by
  induction line with
  | nil => cases h
  | cons e line ih =>
      cases h with
      | byte _ h => exact ⟨0, line, rfl, by simp [uartRun], h, by simp⟩
      | idle h =>
          obtain ⟨m, line', hstate, hreports, hrest, hle⟩ := ih h
          have hiter : uartIter ⟨k, .idle :: line⟩ = (.quiet, ⟨k, line⟩) := rfl
          refine ⟨m + 1, line', ?_, ?_, hrest, ?_⟩
          · simpa [uartRun, hiter] using hstate
          · simpa [uartRun, hiter, UartReport.hunting] using hreports
          · simp only [List.length_cons]
            omega

/-- Reading a preamble leaves the hunt complete, whatever part of one came
before it. -/
theorem hunt_preamble (k : ℕ) : hunt preamble k preamble = 4 := by
  have htake := hunt_take preamble_freshHead k (i := preamble.length)
    (by decide) le_rfl
  rwa [List.take_length] at htake

theorem hunt_preamble_take {k : ℕ} (hk : k < 4) {i : ℕ} (hi : i < 4) :
    hunt preamble k (preamble.take i) < 4 := by
  rcases Nat.eq_zero_or_pos i with rfl | hpos
  · simpa using hk
  · rw [hunt_take preamble_freshHead k hpos (Nat.le_of_lt hi)]
    exact hi

/-- Noise without a preamble never completes the hunt that starts at zero. -/
theorem hunt_noise_take {g : List UInt8} (hg : ¬ preamble <:+: g) (i : ℕ) :
    hunt preamble 0 (g.take i) < 4 :=
  hunt_lt_length_of_not_infix hg (List.take_prefix i g)

/-- Passes over noise, a preamble and a type byte end with what the branch of that
type makes of the rest. -/
theorem uartRun_toType {g : List UInt8} (hg : ¬ preamble <:+: g) (type : UInt8)
    {line : List RxEvent} (rest : List UInt8)
    (h : Carries line (g ++ (preamble ++ type :: rest))) :
    ∃ m line' hunted, uartRun (m + 1) ⟨0, line⟩ =
        (hunted ++ [(readFrame type line').1], ⟨0, (readFrame type line').2⟩) ∧
      (∀ r ∈ hunted, r.hunting = true) ∧
      Carries line' rest ∧ line'.length + (m + 1) ≤ line.length := by
  -- the noise
  obtain ⟨m₁, line₁, hstate₁, hhunt₁, h₁, hle₁⟩ :=
    uartRun_hunt g (k := 0) (fun i _ => hunt_noise_take hg i) _ h
  have hk : hunt preamble 0 g < 4 := by
    simpa using hunt_noise_take hg g.length
  -- the preamble
  obtain ⟨m₂, line₂, hstate₂, hhunt₂, h₂, hle₂⟩ :=
    uartRun_hunt preamble (k := hunt preamble 0 g)
      (fun i hi => hunt_preamble_take hk hi) _ h₁
  rw [hunt_preamble] at hstate₂
  -- the type byte and the rest of the frame, after any idle passes
  obtain ⟨m₃, line₃, hstate₃, hhunt₃, h₃, hle₃⟩ := uartRun_idle 4 h₂
  have hframe : uartRun 1 ⟨4, .byte type :: line₃⟩ =
      ([(readFrame type line₃).1], ⟨0, (readFrame type line₃).2⟩) := rfl
  refine ⟨m₁ + (m₂ + m₃), line₃,
    (uartRun m₁ ⟨0, line⟩).1 ++ ((uartRun m₂ ⟨hunt preamble 0 g, line₁⟩).1 ++
      (uartRun m₃ ⟨4, line₂⟩).1), ?_, ?_, h₃, by omega⟩
  · simp only [Nat.add_assoc, uartRun_add, hstate₁, hstate₂, hstate₃, hframe,
      List.append_assoc]
  · intro r hr
    rcases List.mem_append.mp hr with hr | hr
    · exact hhunt₁ r hr
    · rcases List.mem_append.mp hr with hr | hr
      · exact hhunt₂ r hr
      · exact hhunt₃ r hr

/-! ## Streams of frames -/

/-- Noise and frames in turn, with noise at the end. -/
def frameStream (segments : List (List UInt8 × LifiFrame))
    (noise : List UInt8) : List UInt8 :=
  segments.flatMap (fun s => s.1 ++ s.2.bytes) ++ noise

/-- Passes over one stretch of noise and one frame end with that frame. -/
theorem uartRun_segment {g : List UInt8} (hg : ¬ preamble <:+: g)
    (f : LifiFrame) {line : List RxEvent} (rest : List UInt8)
    (h : Carries line (g ++ f.bytes ++ rest)) :
    ∃ m line' hunted, uartRun m ⟨0, line⟩ =
        (hunted ++ [.frame f.received], ⟨0, line'⟩) ∧
      (∀ r ∈ hunted, r.hunting = true) ∧
      Carries line' rest ∧ line'.length + m ≤ line.length := by
  rw [f.bytes_eq_sendShort] at h
  simp only [sendShort, List.append_assoc] at h
  obtain ⟨m, line₁, hunted, hrun, hhunt, h₁, hle₁⟩ := uartRun_toType hg _ _ h
  obtain ⟨line₂, hread, h₂, hle₂⟩ := readFrame_of_carries f rest (by
    simp only [List.append_assoc]
    exact h₁)
  rw [hread] at hrun
  exact ⟨m + 1, line₂, hunted, hrun, hhunt, h₂, by omega⟩

/-- With no bytes left on the line every further pass is quiet. -/
theorem hunting_of_carries_nil (n k : ℕ) {line : List RxEvent}
    (h : Carries line []) : ∀ r ∈ (uartRun n ⟨k, line⟩).1, r.hunting = true := by
  induction n generalizing line with
  | zero => simp [uartRun]
  | succ n ih =>
      cases h with
      | nil =>
          have hiter : uartIter ⟨k, []⟩ = (.quiet, ⟨k, []⟩) := rfl
          simpa [uartRun, hiter, UartReport.hunting] using ih .nil
      | @idle line _ h =>
          have hiter : uartIter ⟨k, .idle :: line⟩ = (.quiet, ⟨k, line⟩) := rfl
          simpa [uartRun, hiter, UartReport.hunting] using ih h

theorem filter_hunting_eq_nil {reports : List UartReport}
    (h : ∀ r ∈ reports, r.hunting = true) :
    reports.filter (fun r => !r.hunting) = [] := by
  rw [List.filter_eq_nil_iff]
  intro r hr
  simp [h r hr]

/-- The hunting passes aside, a run over a stream of frames reports exactly the
frames, in order. -/
theorem filter_uartRun_frameStream
    (segments : List (List UInt8 × LifiFrame)) {noise : List UInt8}
    (hsegments : ∀ s ∈ segments, ¬ preamble <:+: s.1)
    (hnoise : ¬ preamble <:+: noise) {line : List RxEvent}
    (h : Carries line (frameStream segments noise)) {n : ℕ}
    (hn : line.length ≤ n) :
    (uartRun n ⟨0, line⟩).1.filter (fun r => !r.hunting) =
      segments.map (fun s => .frame s.2.received) := by
  induction segments generalizing line n with
  | nil =>
      obtain ⟨m, line', hstate, hhunt, hrest, hle⟩ :=
        uartRun_hunt noise (k := 0) (fun i _ => hunt_noise_take hnoise i) []
          (by simpa [frameStream] using h)
      obtain ⟨d, rfl⟩ := Nat.exists_eq_add_of_le (show m ≤ n by omega)
      rw [uartRun_add, hstate, List.filter_append, filter_hunting_eq_nil hhunt,
        filter_hunting_eq_nil (hunting_of_carries_nil _ _ hrest)]
      rfl
  | cons s segments ih =>
      have hs := hsegments s (by simp)
      obtain ⟨m, line', hunted, hrun, hhunt, hrest, hle⟩ :=
        uartRun_segment hs s.2 (frameStream segments noise)
          (by simpa [frameStream] using h)
      have ih := ih (fun s' hs' => hsegments s' (List.mem_cons_of_mem _ hs'))
        hrest (n := n - m) (by omega)
      obtain ⟨d, rfl⟩ := Nat.exists_eq_add_of_le (show m ≤ n by omega)
      rw [Nat.add_sub_cancel_left] at ih
      rw [uartRun_add, hrun, List.filter_append, List.filter_append, ih,
        filter_hunting_eq_nil hhunt]
      rfl

theorem filterMap_handed_filter (reports : List UartReport) :
    (reports.filter (fun r => !r.hunting)).filterMap UartReport.handed =
      reports.filterMap UartReport.handed := by
  rw [List.filterMap_filter]
  congr 1
  funext r
  cases r <;> rfl

/-- The receiver's parser hands exactly the emitted frames to frame processing, in
order, and every pass that is not one of them is part of the hunt: no read, length
or checksum check fails. -/
theorem dash_receives_emitted_frames
    (segments : List (List UInt8 × LifiFrame)) {noise : List UInt8}
    (hsegments : ∀ s ∈ segments, ¬ preamble <:+: s.1)
    (hnoise : ¬ preamble <:+: noise) {line : List RxEvent}
    (h : Carries line (frameStream segments noise)) {n : ℕ}
    (hn : line.length ≤ n) :
    (uartRun n ⟨0, line⟩).1.filterMap UartReport.handed =
        segments.map (fun s => (s.2.type, s.2.payload)) ∧
      ∀ r ∈ (uartRun n ⟨0, line⟩).1,
        r.hunting = true ∨ ∃ f, r = .frame f := by
  have hfilter := filter_uartRun_frameStream segments hsegments hnoise h hn
  constructor
  · rw [← filterMap_handed_filter, hfilter, List.filterMap_map]
    simp [Function.comp_def, UartReport.handed]
  · intro r hr
    by_cases hhunt : r.hunting = true
    · exact Or.inl hhunt
    · have hmem : r ∈ (uartRun n ⟨0, line⟩).1.filter (fun r => !r.hunting) := by
        simp [hr, hhunt]
      rw [hfilter] at hmem
      obtain ⟨s, -, hs⟩ := List.mem_map.mp hmem
      exact Or.inr ⟨s.2.received, hs.symm⟩

/-- A key id after a stray preamble byte, and a message of two bytes after the first three
of a preamble. -/
def twoSegments : List (List UInt8 × LifiFrame) :=
  [([0xAB], .keyIdOnly (Bytes.zero 8)),
    ([0xAB, 0xCD, 0xEF], .data .encrypted (Bytes.zero 12) ⟨[7, 9], Nat.le_of_ble_eq_true rfl⟩
      (Bytes.zero 16))]

/-- They come with a pause inside the noise, and half a preamble comes behind them. -/
def pausedLine : List RxEvent :=
  .byte 0xAB :: .idle :: steady ((frameStream twoSegments [0xAB, 0xCD]).drop 1)

theorem dash_receives_emitted_frames_twoSegments :
    (uartRun 100 ⟨0, pausedLine⟩).1.filterMap UartReport.handed =
        [(msgTypeKeyIdOnly, List.replicate 8 0),
          (msgTypeEncrypted, List.replicate 12 0 ++ [7, 9] ++ List.replicate 16 0)] ∧
      ∀ r ∈ (uartRun 100 ⟨0, pausedLine⟩).1, r.hunting = true ∨ ∃ f, r = .frame f := by
  have hline : Carries pausedLine (frameStream twoSegments [0xAB, 0xCD]) :=
    .byte 0xAB (.idle (carries_steady _))
  exact dash_receives_emitted_frames twoSegments (by decide) (by decide) hline
    (by decide +kernel)

end LifiAuth
