import LifiAuth.Dash.State
import LifiAuth.Pico.Drain
import LifiAuth.Pico.KeyStore
import LifiAuth.Pico.NonceUnique
import LifiAuth.Support.Period

/-!
# Delivery of KEY frames

What the sender makes of the bytes of a KEY frame: its byte parser from any state of
the hunt, and `receive_new_key_with_timeout`, which knows another preamble.
-/

namespace LifiAuth

open Support

variable (m : Mbedtls)

/-! ## Lines -/

/-- The next byte of a line comes after some pauses. -/
theorem carries_cons {line : List RxEvent} {b : UInt8} {bs : List UInt8}
    (h : Carries line (b :: bs)) :
    ∃ n line', line = List.replicate n .idle ++ .byte b :: line' ∧
      Carries line' bs := by
  induction line with
  | nil => cases h
  | cons e line ih =>
      cases h with
      | byte _ h => exact ⟨0, line, rfl, h⟩
      | idle h =>
          obtain ⟨n, line', rfl, hrest⟩ := ih h
          exact ⟨n + 1, line', rfl, hrest⟩

/-- A line without bytes is a row of pauses. -/
theorem carries_nil {line : List RxEvent} (h : Carries line []) :
    ∃ n, line = List.replicate n .idle := by
  induction line with
  | nil => exact ⟨0, rfl⟩
  | cons e line ih =>
      cases h with
      | idle h =>
          obtain ⟨n, rfl⟩ := ih h
          exact ⟨n + 1, rfl⟩

/-! ## The byte parser -/

/-- `n` looks at uart1. -/
def looks (n : ℕ) (u : PicoUart) : PicoUart :=
  (fun u => (picoUartIter u).2)^[n] u

theorem looks_add (n i : ℕ) (u : PicoUart) : looks (n + i) u = looks i (looks n u) := by
  rw [looks, Nat.add_comm, Function.iterate_add_apply]
  rfl

/-- `n` looks that report nothing lead from `u` to `u'`. -/
structure QuietlyTo (n : ℕ) (u u' : PicoUart) : Prop where
  quiet : ∀ i < n, (picoUartIter (looks i u)).1 = .quiet
  after : looks n u = u'

theorem quietlyTo_zero (u : PicoUart) : QuietlyTo 0 u u :=
  ⟨fun i hi => absurd hi (Nat.not_lt_zero i), rfl⟩

theorem quietlyTo_one {u u' : PicoUart} (h : picoUartIter u = (.quiet, u')) :
    QuietlyTo 1 u u' := by
  constructor
  · intro i hi
    rw [Nat.lt_one_iff.mp hi]
    exact congrArg Prod.fst h
  · exact congrArg Prod.snd h

theorem QuietlyTo.trans {n n' : ℕ} {u u' u'' : PicoUart} (h : QuietlyTo n u u')
    (h' : QuietlyTo n' u' u'') : QuietlyTo (n + n') u u'' := by
  constructor
  · intro i hi
    by_cases hn : i < n
    · exact h.quiet i hn
    · have hsplit : i = n + (i - n) := by omega
      rw [hsplit, looks_add, h.after]
      exact h'.quiet (i - n) (by omega)
  · rw [looks_add, h.after, h'.after]

/-- After quiet looks, a KEY frame with these keys comes first, and leaves `line` on
uart1. -/
structure FirstKey (u : PicoUart) (id : Bytes 8) (key : Bytes 16)
    (macKey : Bytes 32) (n : ℕ) (line : List RxEvent) : Prop where
  quiet : QuietlyTo n u (looks n u)
  report : picoUartIter (looks n u) = (.key id key macKey, ⟨0, line⟩)

/-- A first KEY frame comes before every other one. -/
theorem FirstKey.le {u : PicoUart} {id id' : Bytes 8} {key key' : Bytes 16}
    {macKey macKey' : Bytes 32} {n n' : ℕ} {line line' : List RxEvent}
    (h : FirstKey u id key macKey n line)
    (h' : FirstKey u id' key' macKey' n' line') : n ≤ n' := by
  by_contra hlt
  have hquiet := h.quiet.quiet n' (Nat.lt_of_not_le hlt)
  rw [h'.report] at hquiet
  cases hquiet

/-- There is only one. -/
theorem FirstKey.unique {u : PicoUart} {id id' : Bytes 8} {key key' : Bytes 16}
    {macKey macKey' : Bytes 32} {n n' : ℕ} {line line' : List RxEvent}
    (h : FirstKey u id key macKey n line)
    (h' : FirstKey u id' key' macKey' n' line') :
    (id, key, macKey) = (id', key', macKey') ∧ line = line' := by
  obtain rfl := Nat.le_antisymm (h.le h') (h'.le h)
  have heq := h.report.symm.trans h'.report
  simp only [Prod.mk.injEq, PicoReport.key.injEq, PicoUart.mk.injEq] at heq ⊢
  exact ⟨heq.1, heq.2.2⟩

theorem quietlyTo_idle (n k : ℕ) (line : List RxEvent) :
    QuietlyTo n ⟨k, List.replicate n .idle ++ line⟩ ⟨k, line⟩ := by
  induction n with
  | zero => exact quietlyTo_zero _
  | succ n ih =>
      have hone : QuietlyTo 1 ⟨k, List.replicate (n + 1) .idle ++ line⟩
          ⟨k, List.replicate n .idle ++ line⟩ := quietlyTo_one rfl
      have hboth := hone.trans ih
      rwa [Nat.add_comm] at hboth

/-- Pauses lead to the next byte. -/
theorem quietlyTo_byte (k : ℕ) {line : List RxEvent} {b : UInt8}
    {bs : List UInt8} (hline : Carries line (b :: bs)) :
    ∃ n line', Carries line' bs ∧ n + 1 + line'.length = line.length ∧
      QuietlyTo n ⟨k, line⟩ ⟨k, .byte b :: line'⟩ := by
  obtain ⟨n, line', rfl, hrest⟩ := carries_cons hline
  refine ⟨n, line', hrest, ?_, quietlyTo_idle n k (.byte b :: line')⟩
  rw [List.length_append, List.length_replicate, List.length_cons]
  omega

/-- A byte that only moves the hunt. -/
theorem quietlyTo_hunt (k k' : ℕ) {line : List RxEvent} {b : UInt8}
    {bs : List UInt8} (hline : Carries line (b :: bs))
    (hbyte : ∀ line', picoByte k b line' = (.quiet, ⟨k', line'⟩)) :
    ∃ n line', Carries line' bs ∧ n + line'.length = line.length ∧
      QuietlyTo n ⟨k, line⟩ ⟨k', line'⟩ := by
  obtain ⟨n, line', hrest, hlen, hpauses⟩ := quietlyTo_byte k hline
  exact ⟨n + 1, line', hrest, hlen, hpauses.trans (quietlyTo_one (hbyte line'))⟩

/-- A preamble is found from every state of the hunt. -/
theorem quietlyTo_preamble {k : ℕ} (hk : k ≤ 3) {line : List RxEvent}
    {bs : List UInt8} (hline : Carries line (preamble ++ bs)) :
    ∃ n line', Carries line' bs ∧ n + line'.length = line.length ∧
      QuietlyTo n ⟨k, line⟩ ⟨4, line'⟩ := by
  have hfirst (line' : List RxEvent) :
      picoByte k preambleByte1 line' = (.quiet, ⟨1, line'⟩) := by
    have hcases : k = 0 ∨ k = 1 ∨ k = 2 ∨ k = 3 := by omega
    rcases hcases with rfl | rfl | rfl | rfl
    all_goals rfl
  obtain ⟨n₁, line₁, hline₁, hlen₁, h₁⟩ := quietlyTo_hunt k 1 hline hfirst
  obtain ⟨n₂, line₂, hline₂, hlen₂, h₂⟩ :=
    quietlyTo_hunt 1 2 hline₁ fun _ => rfl
  obtain ⟨n₃, line₃, hline₃, hlen₃, h₃⟩ :=
    quietlyTo_hunt 2 3 hline₂ fun _ => rfl
  obtain ⟨n₄, line₄, hline₄, hlen₄, h₄⟩ :=
    quietlyTo_hunt 3 4 hline₃ fun _ => rfl
  exact ⟨n₁ + n₂ + n₃ + n₄, line₄, hline₄, by omega,
    ((h₁.trans h₂).trans h₃).trans h₄⟩

/-- A KEY frame, with any length field, that comes without a timeout is taken from
every state of the hunt. -/
theorem firstKey_of_carries {k : ℕ} (hk : k ≤ 3) (len : Bytes 2) (id : Bytes 8)
    (key : Bytes 16) (macKey : Bytes 32) {line : List RxEvent} {rest : List UInt8}
    (hline : Carries line (preamble ++ msgTypeKey :: (len.toList ++ (id.toList ++
      (key.toList ++ (macKey.toList ++ rest)))))) :
    ∃ n line', FirstKey ⟨k, line⟩ id key macKey n line' ∧ Carries line' rest ∧
      n + 1 + line'.length ≤ line.length := by
  obtain ⟨n₁, line₁, hline₁, hlen₁, h₁⟩ := quietlyTo_preamble hk hline
  obtain ⟨n₂, line₂, hline₂, hlen₂, h₂⟩ := quietlyTo_byte 4 hline₁
  obtain ⟨line', hread, hrest, hlen'⟩ :=
    readKey_of_carries len id key macKey hline₂
  have hquiet := h₁.trans h₂
  have htype : picoUartIter ⟨4, .byte msgTypeKey :: line₂⟩ =
      ((readKey line₂).1, ⟨0, (readKey line₂).2⟩) := rfl
  refine ⟨n₁ + n₂, line', ⟨?_, ?_⟩, hrest, by omega⟩
  · rw [hquiet.after]
    exact hquiet
  · rw [hquiet.after, htype, hread]

/-! ## Draining -/

section

variable {m}

theorem run_lifiDrain_quiet (p : Pico) {n : ℕ} {u u' : PicoUart}
    (hu : QuietlyTo n u u') {envs : List PicoEnv} (henvs : n ≤ envs.length) :
    (lifiDrain m).run (p, u) envs = (lifiDrain m).run (p, u') (envs.drop n) := by
  induction n generalizing u envs with
  | zero => rw [← hu.after]; rfl
  | succ n ih =>
      obtain ⟨env, envs, rfl⟩ := List.exists_cons_of_length_pos
        (Nat.lt_of_lt_of_le n.succ_pos henvs)
      have hstep : ((lifiDrain m).step (p, u) env).1 = (p, (picoUartIter u).2) := by
        have hreport : ((lifiDrain m).step (p, u) env).1 =
            ((handlePicoReport m env (picoUartIter u).1 p).1,
              (picoUartIter u).2) := rfl
        have hquiet : (picoUartIter u).1 = .quiet := hu.quiet 0 n.succ_pos
        rw [hreport, hquiet]
        rfl
      rw [Machine.run_cons, hstep, List.drop_succ_cons]
      refine ih ⟨?_, hu.after⟩ (Nat.le_of_succ_le_succ henvs)
      intro i hi
      exact hu.quiet (i + 1) (Nat.succ_lt_succ hi)

/-- The look at a KEY frame hands it to its handler. -/
theorem run_lifiDrain_firstKey (p : Pico) {u : PicoUart} {id : Bytes 8}
    {key : Bytes 16} {macKey : Bytes 32} {n : ℕ} {line : List RxEvent}
    (hfirst : FirstKey u id key macKey n line) {envs : List PicoEnv}
    (henvs : n < envs.length) :
    ∃ env ∈ envs, (lifiDrain m).run (p, u) envs =
      (lifiDrain m).run ((handleKeyFrame m env id key macKey p).1, ⟨0, line⟩)
        (envs.drop (n + 1)) := by
  refine ⟨envs[n], List.getElem_mem henvs, ?_⟩
  have hreport : ((lifiDrain m).step (p, looks n u) envs[n]).1 =
      ((handlePicoReport m envs[n] (picoUartIter (looks n u)).1 p).1,
        (picoUartIter (looks n u)).2) := rfl
  rw [hfirst.report] at hreport
  rw [run_lifiDrain_quiet p hfirst.quiet (Nat.le_of_lt henvs),
    List.drop_eq_getElem_cons henvs, Machine.run_cons, hreport]
  rfl

/-- A line without bytes is drained without a report. -/
theorem run_lifiDrain_nil (p : Pico) (k : ℕ) {line : List RxEvent}
    (hline : Carries line []) {envs : List PicoEnv}
    (henvs : line.length ≤ envs.length) :
    (lifiDrain m).run (p, ⟨k, line⟩) envs = (p, ⟨k, []⟩) := by
  obtain ⟨n, rfl⟩ := carries_nil hline
  rw [List.length_replicate] at henvs
  have hempty (envs : List PicoEnv) :
      (lifiDrain m).run (p, ⟨k, []⟩) envs = (p, ⟨k, []⟩) := by
    induction envs with
    | nil => rfl
    | cons env envs ih => exact ih
  have hpauses := quietlyTo_idle n k []
  rw [List.append_nil] at hpauses
  rw [run_lifiDrain_quiet p hpauses henvs, hempty]

/-- A KEY frame of dash_receiver as its parts. -/
theorem keyFrame_eq (id : Bytes 8) (key : Bytes 16) (macKey : Bytes 32) :
    keyFrame id key macKey = preamble ++ msgTypeKey ::
      ((lenBytes keyFrameLen).toList ++ (id.toList ++
        (key.toList ++ (macKey.toList ++ [])))) := by
  simp [keyFrame, keyFrameParts, txHeader]

/-- Such a frame, and nothing after it. -/
theorem run_lifiDrain_keyFrame (p : Pico) {k : ℕ} (hk : k ≤ 3) {id : Bytes 8}
    {key : Bytes 16} {macKey : Bytes 32} {line : List RxEvent}
    (hline : Carries line (keyFrame id key macKey)) {envs : List PicoEnv}
    (henvs : line.length ≤ envs.length) :
    ∃ env ∈ envs, (lifiDrain m).run (p, ⟨k, line⟩) envs =
      ((handleKeyFrame m env id key macKey p).1, ⟨0, []⟩) := by
  rw [keyFrame_eq] at hline
  obtain ⟨n, line', hfirst, hrest, hlen⟩ :=
    firstKey_of_carries hk _ id key macKey hline
  obtain ⟨env, hmem, hrun⟩ :=
    run_lifiDrain_firstKey (m := m) p hfirst
      (Nat.lt_of_lt_of_le (Nat.lt_of_lt_of_le (by omega) hlen) henvs)
  refine ⟨env, hmem, hrun.trans (run_lifiDrain_nil _ 0 hrest ?_)⟩
  rw [List.length_drop]
  omega

/-- What a KEY frame does to the keys. -/
theorem keys_handleKeyFrame (env : PicoEnv) (id : Bytes 8) (key : Bytes 16)
    (macKey : Bytes 32) (p : Pico) :
    let p' := (handleKeyFrame m env id key macKey p).1
    (p'.sessionKeyId, p'.sessionKey, p'.sessionMacKey) = (id, key, macKey) ∧
      p'.currentSlot = p.currentSlot ∧
      picoReadKeyPairFromSlot m p'.flash p'.currentSlot = some (id, key) := by
  have hstore := keyStore_handleKeyFrame m env (id, key) macKey p
  refine ⟨?_, congrArg KeyStore.slot hstore, ?_⟩
  · exact congrArg (fun k => (k.keyId, k.key, k.macKey)) hstore
  · have hslot := congrArg (fun k => k.stored k.slot) hstore
    exact hslot.trans (Function.update_self ..)

end

/-! ## The wait for a key -/

/-- Of the preamble, the wait only knows the first two bytes: what follows them is
taken for the id and the key. -/
theorem receiveNewKeyWithTimeout_of_carries (id : Bytes 8) (key : Bytes 16)
    {line : List RxEvent} {rest : List UInt8}
    (hline : Carries line (preambleByte1 :: preambleByte2 ::
      (id.toList ++ (key.toList ++ rest)))) :
    receiveNewKeyWithTimeout false line = some (id, key) := by
  have hidle (first : Bool) (n : ℕ) (line : List RxEvent) :
      receiveNewKeyWithTimeout first (List.replicate n .idle ++ line) =
        receiveNewKeyWithTimeout first line := by
    induction n with
    | zero => rfl
    | succ n ih => exact ih
  obtain ⟨n₁, line₁, rfl, hline₁⟩ := carries_cons hline
  obtain ⟨n₂, line₂, rfl, hline₂⟩ := carries_cons hline₁
  obtain ⟨line₃, hid, hline₃, -⟩ := readExact_of_carries id hline₂
  obtain ⟨line₄, hkey, -, -⟩ := readExact_of_carries key hline₃
  have hfirst : receiveNewKeyWithTimeout false
      (.byte preambleByte1 :: (List.replicate n₂ .idle ++
        .byte preambleByte2 :: line₂)) =
      receiveNewKeyWithTimeout true (List.replicate n₂ .idle ++
        .byte preambleByte2 :: line₂) := rfl
  rw [hidle, hfirst, hidle, receiveNewKeyWithTimeout, if_pos rfl, hid]
  simp only [hkey, Option.map_some]

/-- What follows the first two bytes of a KEY frame. -/
def keyFrameTail : List UInt8 :=
  preambleByte3 :: preambleByte4 :: msgTypeKey :: (lenBytes keyFrameLen).toList

/-- From a KEY frame, the wait takes the first 24 bytes after `AB CD`. -/
theorem receiveNewKeyWithTimeout_keyFrame {id : Bytes 8} {key : Bytes 16}
    {macKey : Bytes 32} {line : List RxEvent}
    (hline : Carries line (keyFrame id key macKey)) :
    ∃ id' : Bytes 8, ∃ key' : Bytes 16,
      receiveNewKeyWithTimeout false line = some (id', key') ∧
        id'.toList ++ key'.toList =
          (keyFrameTail ++ (id.toList ++ key.toList)).take 24 := by
  let w := keyFrameTail ++ (id.toList ++ key.toList)
  have hlen : w.length = 29 := by simp [w, keyFrameTail]
  let id' : Bytes 8 := ⟨w.take 8, by simp [hlen]⟩
  let key' : Bytes 16 := ⟨(w.drop 8).take 16, by simp [hlen]⟩
  have hframe : keyFrame id key macKey = preambleByte1 :: preambleByte2 ::
      (id'.toList ++ (key'.toList ++ ((w.drop 8).drop 16 ++ macKey.toList))) := by
    have hw : id'.toList ++ (key'.toList ++ ((w.drop 8).drop 16 ++ macKey.toList)) =
        w ++ macKey.toList := by
      simp only [id', key', Bytes.toList_mk, ← List.append_assoc]
      rw [List.append_assoc (w.take 8), List.take_append_drop,
        List.take_append_drop]
    rw [hw, keyFrame_eq]
    simp [w, keyFrameTail, preamble]
  refine ⟨id', key', ?_, ?_⟩
  · rw [hframe] at hline
    exact receiveNewKeyWithTimeout_of_carries id' key' hline
  · have htake : w.take (8 + 16) = w.take 8 ++ (w.drop 8).take 16 :=
      List.take_add ..
    exact htake.symm

/-- From the same KEY frame, the wait returns the id and key that the byte parser
installs exactly if they repeat the bytes before them. -/
theorem newKey_agrees_iff (p : Pico) {k : ℕ} (hk : k ≤ 3) (id : Bytes 8)
    (key : Bytes 16) (macKey : Bytes 32) {line : List RxEvent}
    (hline : Carries line (keyFrame id key macKey)) {envs : List PicoEnv}
    (henvs : line.length ≤ envs.length) :
    let p' := ((lifiDrain m).run (p, ⟨k, line⟩) envs).1
    receiveNewKeyWithTimeout false line = some (p'.sessionKeyId, p'.sessionKey) ↔
      id.toList ++ key.toList = (copies keyFrameTail 24).take 24 := by
  obtain ⟨env, -, hrun⟩ := run_lifiDrain_keyFrame (m := m) p hk hline henvs
  obtain ⟨id', key', hread, hbytes⟩ := receiveNewKeyWithTimeout_keyFrame hline
  obtain ⟨hkeys, -⟩ := keys_handleKeyFrame (m := m) env id key macKey p
  obtain ⟨hid, hrest⟩ := Prod.mk.inj hkeys
  obtain ⟨hkey, -⟩ := Prod.mk.inj hrest
  have hlen : (id.toList ++ key.toList).length = 24 := by simp
  have hperiod := take_append_self_iff (e := keyFrameTail) (by decide)
    (id.toList ++ key.toList)
  rw [hlen, ← hbytes] at hperiod
  intro p'
  have hp' : (p'.sessionKeyId, p'.sessionKey) = (id, key) := by
    simp only [p', hrun, hid, hkey]
  rw [hp', hread, ← hperiod, Option.some_inj]
  constructor
  · intro heq
    rw [(Prod.mk.inj heq).1, (Prod.mk.inj heq).2]
  · intro heq
    obtain ⟨hids, hkeys⟩ := List.append_inj heq (by simp)
    rw [Bytes.ext_toList hids, Bytes.ext_toList hkeys]

/-- A key of ones and twos in a frame that arrives back to back. -/
def onesFrame : List RxEvent :=
  steady (keyFrame (List.Vector.replicate 8 1) (List.Vector.replicate 16 2)
    (List.Vector.replicate 32 3))

/-- The id that the wait takes from it. -/
def headerId : Bytes 8 := ⟨[0xEF, 0x12, 0x10, 0, 0x38, 1, 1, 1], rfl⟩

/-- The byte parser installs the key; the wait returns part of the header as the
id. -/
theorem newKey_reads_header :
    let p' := ((lifiDrain .transparent).run (Pico.off Flash.erased, ⟨0, onesFrame⟩)
      (List.replicate 63 .salted)).1
    (p'.sessionKeyId, p'.sessionKey) =
        (List.Vector.replicate 8 1, List.Vector.replicate 16 2) ∧
      (receiveNewKeyWithTimeout false onesFrame).map Prod.fst = some headerId ∧
      receiveNewKeyWithTimeout false onesFrame ≠
        some (p'.sessionKeyId, p'.sessionKey) := by
  decide +kernel

/-- The only pair on which the two agree. -/
def agreedId : Bytes 8 := ⟨[0xEF, 0x12, 0x10, 0, 0x38, 0xEF, 0x12, 0x10], rfl⟩

def agreedKey : Bytes 16 :=
  ⟨[0, 0x38, 0xEF, 0x12, 0x10, 0, 0x38, 0xEF, 0x12, 0x10, 0, 0x38, 0xEF, 0x12,
    0x10, 0], rfl⟩

theorem newKey_agrees_agreedKey :
    let line := steady (keyFrame agreedId agreedKey (Bytes.zero 32))
    let p' := ((lifiDrain .transparent).run (Pico.off Flash.erased, ⟨0, line⟩)
      (List.replicate 63 .salted)).1
    receiveNewKeyWithTimeout false line = some (p'.sessionKeyId, p'.sessionKey) :=
  (newKey_agrees_iff .transparent (Pico.off Flash.erased) (Nat.zero_le 3) agreedId agreedKey
    (Bytes.zero 32) (carries_steady _) (by decide +kernel)).mpr (by decide +kernel)

end LifiAuth
