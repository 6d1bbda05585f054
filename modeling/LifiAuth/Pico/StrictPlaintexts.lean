import LifiAuth.Pico.Drain
import LifiAuth.Pico.NonceUnique

/-!
# Strict handshake plaintexts

What the plaintexts of the first and the third message have to be, and which parts of them
the sender looks at: of the padding only the last byte, of the first message not the
indicator, of the third one not the entity nonce.
-/

namespace LifiAuth

open Support

variable (m : Mbedtls)

/-! ## Plaintexts -/

/-- `01`, a nonce, and seven bytes `07`. -/
def StrictHs1 (block : Bytes 16) : Prop :=
  block.toList = 1 :: ((hs1EntityNonce block).toList ++ List.replicate 7 7)

/-- `03`, the two nonces, and fifteen bytes `0F`. -/
def StrictHs3 (entityNonce picoNonce : Bytes 8) (plain : Bytes 32) : Prop :=
  plain.toList =
    3 :: (entityNonce.toList ++ (picoNonce.toList ++ List.replicate 15 15))

def hs1Padding (block : Bytes 16) : Bytes 7 :=
  block.slice 9 7 (by decide)

def hs3Padding (plain : Bytes 32) : Bytes 15 :=
  plain.slice 17 15 (by decide)

theorem toList_eq_head_cons {n : ℕ} (b : Bytes (n + 1)) :
    b.toList = b.head :: b.toList.drop 1 := by
  obtain ⟨_ | ⟨c, l⟩, hl⟩ := b
  · cases hl
  · rfl

theorem toList_hs1Block (block : Bytes 16) :
    block.toList =
      block.head :: ((hs1EntityNonce block).toList ++ (hs1Padding block).toList) := by
  have hpad : (block.toList.drop 9).take 7 = block.toList.drop 9 :=
    List.take_of_length_le (by simp)
  have htail : (block.toList.drop 1).take 8 ++ block.toList.drop 9 =
      block.toList.drop 1 := by
    rw [← List.drop_drop (i := 8) (j := 1), List.take_append_drop]
  rw [hs1EntityNonce, hs1Padding, Bytes.toList_slice, Bytes.toList_slice, hpad, htail]
  exact toList_eq_head_cons block

theorem toList_hs3Plain (plain : Bytes 32) :
    plain.toList = plainIndicator plain :: ((plainFirst plain).toList ++
      ((plainSecond plain).toList ++ (hs3Padding plain).toList)) := by
  have hpad : (plain.toList.drop 17).take 15 = plain.toList.drop 17 :=
    List.take_of_length_le (by simp)
  have hsecond : (plain.toList.drop 9).take 8 ++ plain.toList.drop 17 =
      plain.toList.drop 9 := by
    rw [← List.drop_drop (i := 8) (j := 9), List.take_append_drop]
  have hfirst : (plain.toList.drop 1).take 8 ++ plain.toList.drop 9 =
      plain.toList.drop 1 := by
    rw [← List.drop_drop (i := 8) (j := 1), List.take_append_drop]
  rw [plainIndicator, plainFirst, plainSecond, hs3Padding, Bytes.toList_slice,
    Bytes.toList_slice, Bytes.toList_slice, hpad, hsecond, hfirst]
  exact toList_eq_head_cons plain

theorem toList_inj_append {n : ℕ} {a b : Bytes n} {l l' : List UInt8}
    (h : a.toList ++ l = b.toList ++ l') : a = b ∧ l = l' := by
  have hlen : a.toList.length = b.toList.length := by
    rw [a.toList_length, b.toList_length]
  obtain ⟨hab, hl⟩ := List.append_inj h hlen
  exact ⟨Bytes.ext_toList hab, hl⟩

theorem strictHs1_iff (block : Bytes 16) :
    StrictHs1 block ↔
      block.head = 1 ∧ (hs1Padding block).toList = List.replicate 7 7 := by
  rw [StrictHs1, toList_hs1Block]
  constructor
  · intro h
    obtain ⟨hhead, hrest⟩ := List.cons.inj h
    exact ⟨hhead, (toList_inj_append hrest).2⟩
  · rintro ⟨hhead, hpad⟩
    rw [hhead, hpad]

theorem strictHs3_iff (entityNonce picoNonce : Bytes 8) (plain : Bytes 32) :
    StrictHs3 entityNonce picoNonce plain ↔
      plainIndicator plain = 3 ∧ plainFirst plain = entityNonce ∧
        plainSecond plain = picoNonce ∧
        (hs3Padding plain).toList = List.replicate 15 15 := by
  rw [StrictHs3, toList_hs3Plain]
  constructor
  · intro h
    obtain ⟨hhead, hrest⟩ := List.cons.inj h
    obtain ⟨hfirst, hrest⟩ := toList_inj_append hrest
    obtain ⟨hsecond, hpad⟩ := toList_inj_append hrest
    exact ⟨hhead, hfirst, hsecond, hpad⟩
  · rintro ⟨hhead, hfirst, hsecond, hpad⟩
    rw [hhead, hfirst, hsecond, hpad]

/-! ## The handlers -/

/-- The decrypted block of an `SST_HS1` with the installed key id and a right tag. -/
def hs1Block (hs1 : Bytes 72) (p : Pico) : Option (Bytes 16) :=
  if hs1KeyId hs1 ≠ p.sessionKeyId then none
  else if m.sstHmacSha256Ex p.sessionMacKey (hs1Body hs1).toList ≠
      some (hs1Mac hs1) then none
  else m.sstAes128CbcDecrypt p.sessionKey (hs1Iv hs1) (hs1Ctext hs1)

/-- The first message is answered. -/
def Answered (out : List PicoOut) : Prop :=
  ∃ macKey entityNonce picoNonce hs2Blob,
    .hs2Sent macKey entityNonce picoNonce hs2Blob ∈ out

/-- The third message is accepted. -/
def Accepted (out : List PicoOut) : Prop :=
  ∃ picoNonce hs3, .mutualAuthOk picoNonce hs3 ∈ out

section

variable {m} {env : PicoEnv} {p : Pico}

theorem openHs1_eq (hs1 : Bytes 72) (p : Pico) :
    openHs1 m hs1 p = (hs1Block m hs1 p).bind fun block =>
      if hs1Pad block < 1 ∨ hs1Pad block > 16 then none
      else some (hs1EntityNonce block) := by
  rw [openHs1, hs1Block]
  split
  · rfl
  · split
    · rfl
    · cases m.sstAes128CbcDecrypt p.sessionKey (hs1Iv hs1) (hs1Ctext hs1) with
      | none => rfl
      | some block => rfl

theorem answered_handleHs1_iff (hs1 : Bytes 72) :
    Answered (handleHs1 m env hs1 p).2 ↔
      ∃ block, hs1Block m hs1 p = some block ∧ (1 ≤ hs1Pad block ∧ hs1Pad block ≤ 16) ∧
        (buildHs2 m env.hs2 (hs1EntityNonce block) p).isSome := by
  have hpad (block : Bytes 16) : ¬ (hs1Pad block < 1 ∨ hs1Pad block > 16) ↔
      1 ≤ hs1Pad block ∧ hs1Pad block ≤ 16 := by
    rw [not_or, UInt8.not_lt, gt_iff_lt, UInt8.not_lt]
  constructor
  · rintro ⟨macKey, e, np, blob, hmem⟩
    rcases handleHs1_cases m env hs1 p with hdrop | ⟨e, blob, hopen, hbuilt, -⟩
    · rw [hdrop] at hmem
      cases hmem
    · rw [openHs1_eq, Option.bind_eq_some_iff] at hopen
      obtain ⟨block, hblock, hopen⟩ := hopen
      split at hopen
      · cases hopen
      · next hgood =>
          obtain rfl := Option.some.inj hopen
          exact ⟨block, hblock, (hpad block).mp hgood, by rw [hbuilt]; rfl⟩
  · rintro ⟨block, hblock, hgood, hbuilt⟩
    obtain ⟨blob, hblob⟩ := Option.isSome_iff_exists.mp hbuilt
    simp only [handleHs1, openHs1_eq, hblock, Option.bind_some,
      if_neg ((hpad block).mpr hgood), hblob]
    exact ⟨_, _, _, _, List.mem_singleton_self _⟩

theorem accepted_handleHs3_iff (hs3 : Bytes 80) :
    Accepted (handleHs3 m hs3 p).2 ↔
      ∃ plain, openHs3 m hs3 p = some plain ∧ hs3Ok plain p.savedPicoNonce = true := by
  constructor
  · rintro ⟨picoNonce, blob, hmem⟩
    rcases handleHs3_cases m hs3 p with hforgot | ⟨plain, hopen, hok, -⟩
    · rw [hforgot] at hmem
      cases hmem
    · exact ⟨plain, hopen, hok⟩
  · rintro ⟨plain, hopen, hok⟩
    simp only [handleHs3, hopen, hok, if_true]
    exact ⟨_, _, List.mem_singleton_self _⟩

/-- Nothing else answers a first message or accepts a third one. -/
theorem silent_of_other {r : PicoReport} (hhs1 : ∀ hs1, r ≠ .hs1 hs1)
    (hhs3 : ∀ hs3, r ≠ .hs3 hs3) :
    ¬ Answered (handlePicoReport m env r p).2 ∧
      ¬ Accepted (handlePicoReport m env r p).2 := by
  have hsilent : ∀ o ∈ (handlePicoReport m env r p).2,
      (∀ macKey e np blob, o ≠ .hs2Sent macKey e np blob) ∧
        ∀ np hs3, o ≠ .mutualAuthOk np hs3 := by
    cases r with
    | hs1 hs1 => exact absurd rfl (hhs1 hs1)
    | hs3 hs3 => exact absurd rfl (hhs3 hs3)
    | key newId newKey newMacKey =>
        refine List.forall_mem_cons.mpr ⟨⟨by simp, by simp⟩, ?_⟩
        exact forall_mem_picoNonceInit (fun _ => ⟨by simp, by simp⟩) _
    | _ => exact List.forall_mem_nil _
  constructor
  · rintro ⟨macKey, e, np, blob, hmem⟩
    exact (hsilent _ hmem).1 macKey e np blob rfl
  · rintro ⟨np, hs3, hmem⟩
    exact (hsilent _ hmem).2 np hs3 rfl

end

/-! ## The property and the condition -/

/-- The nonces of the second message that was sent last. -/
def lastHs2 (t : List PicoOut) : Option (Bytes 8 × Bytes 8) :=
  (t.filterMap fun
    | .hs2Sent _ entityNonce picoNonce _ => some (entityNonce, picoNonce)
    | _ => none).getLast?

/-- Whatever the report leads to rests on a strict plaintext. -/
structure StrictStep (t : List PicoOut) (p : Pico) (r : PicoReport)
    (out : List PicoOut) : Prop where
  answered : Answered out → ∃ hs1 block, r = .hs1 hs1 ∧
    m.sstAes128CbcDecrypt p.sessionKey (hs1Iv hs1) (hs1Ctext hs1) = some block ∧
    StrictHs1 block
  accepted : Accepted out → ∃ hs3 plain entityNonce picoNonce, r = .hs3 hs3 ∧
    m.sstAes128CbcDecrypt p.sessionKey (blobIv hs3) (blobCtext hs3) = some plain ∧
    lastHs2 t = some (entityNonce, picoNonce) ∧ StrictHs3 entityNonce picoNonce plain

/-- A message that passes the checks of the sender is right where it does not look: in
the indicator of a first message, in the paddings, and in the entity nonce of a third
message, which comes while the saved nonce has not been wiped. -/
structure RightUnseen (t : List PicoOut) (env : PicoEnv) (p : Pico) (r : PicoReport) :
    Prop where
  hs1 : ∀ hs1 block, r = .hs1 hs1 → hs1Block m hs1 p = some block →
    1 ≤ hs1Pad block ∧ hs1Pad block ≤ 16 →
    (buildHs2 m env.hs2 (hs1EntityNonce block) p).isSome →
      block.head = 1 ∧ (hs1Padding block).toList = List.replicate 7 7
  hs3 : ∀ hs3 plain, r = .hs3 hs3 → openHs3 m hs3 p = some plain →
    hs3Ok plain p.savedPicoNonce = true →
      (hs3Padding plain).toList = List.replicate 15 15 ∧
        ∃ picoNonce, lastHs2 t = some (plainFirst plain, picoNonce) ∧
          (p.savedPicoNonce = Bytes.zero 8 → picoNonce = Bytes.zero 8)

/-- The saved nonce is the one that was sent last, or wiped. -/
def SavedSent (t : List PicoOut) (p : Pico) : Prop :=
  p.savedPicoNonce = Bytes.zero 8 ∨
    ∃ entityNonce, lastHs2 t = some (entityNonce, p.savedPicoNonce)

variable {m} {t : List PicoOut} {env : PicoEnv} {p : Pico} {r : PicoReport}

/-! ## One report -/

theorem lastHs2_append_silent {out : List PicoOut} (h : ¬ Answered out) :
    lastHs2 (t ++ out) = lastHs2 t := by
  have hnone : (out.filterMap fun
      | .hs2Sent _ entityNonce picoNonce _ => some (entityNonce, picoNonce)
      | _ => none) = [] := by
    rw [List.filterMap_eq_nil_iff]
    intro o ho
    cases o with
    | hs2Sent macKey e np blob => exact absurd ⟨macKey, e, np, blob, ho⟩ h
    | _ => rfl
  rw [lastHs2, List.filterMap_append, hnone, List.append_nil]
  rfl

theorem lastHs2_append_sent (macKey : Bytes 32) (e np : Bytes 8) (blob : Bytes 80) :
    lastHs2 (t ++ [.hs2Sent macKey e np blob]) = some (e, np) := by
  rw [lastHs2, List.filterMap_append]
  exact List.getLast?_concat

theorem savedPicoNonce_handleKeyFrame (newId : Bytes 8) (newKey : Bytes 16)
    (newMacKey : Bytes 32) :
    (handleKeyFrame m env newId newKey newMacKey p).1.savedPicoNonce =
      p.savedPicoNonce := by
  simp only [handleKeyFrame, picoNonceOnKeyChange, picoNonceInit]
  split
  · rfl
  · rfl

theorem SavedSent.report (h : SavedSent t p) (env : PicoEnv) (r : PicoReport) :
    SavedSent (t ++ (handlePicoReport m env r p).2) (handlePicoReport m env r p).1 := by
  have hkept {r : PicoReport} (hsilent : ¬ Answered (handlePicoReport m env r p).2)
      (hsaved : (handlePicoReport m env r p).1.savedPicoNonce = p.savedPicoNonce) :
      SavedSent (t ++ (handlePicoReport m env r p).2)
        (handlePicoReport m env r p).1 := by
    rw [SavedSent, hsaved, lastHs2_append_silent hsilent]
    exact h
  cases r with
  | hs1 hs1 =>
      rcases handleHs1_cases m env hs1 p with hdrop | ⟨e, blob, -, -, hanswer⟩
      · rw [handlePicoReport, hdrop, List.append_nil]
        exact h
      · rw [handlePicoReport, hanswer]
        exact Or.inr ⟨e, lastHs2_append_sent ..⟩
  | hs3 hs3 =>
      rcases handleHs3_cases m hs3 p with hforgot | ⟨_, -, -, haccept⟩
      · rw [handlePicoReport, hforgot]
        exact Or.inl rfl
      · rw [handlePicoReport, haccept]
        exact Or.inl rfl
  | key newId newKey newMacKey =>
      exact hkept (silent_of_other (by simp) (by simp)).1
        (savedPicoNonce_handleKeyFrame newId newKey newMacKey)
  | _ => exact hkept (silent_of_other (by simp) (by simp)).1 rfl

/-- A saved nonce that goes with the last second message is the one of it. -/
theorem SavedSent.eq_iff (h : SavedSent t p) (e np : Bytes 8) :
    lastHs2 t = some (e, np) ∧ (p.savedPicoNonce = Bytes.zero 8 → np = Bytes.zero 8) ↔
      lastHs2 t = some (e, np) ∧ np = p.savedPicoNonce := by
  refine and_congr_right fun hlast => ?_
  constructor
  · intro hzero
    rcases h with hwiped | ⟨e', hsent⟩
    · rw [hwiped]
      exact hzero hwiped
    · rw [hsent] at hlast
      exact (Prod.mk.inj (Option.some.inj hlast)).2.symm
  · rintro rfl
    exact id

theorem decrypt_of_hs1Block {hs1 : Bytes 72} {block : Bytes 16}
    (h : hs1Block m hs1 p = some block) :
    m.sstAes128CbcDecrypt p.sessionKey (hs1Iv hs1) (hs1Ctext hs1) = some block := by
  rw [hs1Block] at h
  split at h
  · cases h
  · split at h
    · cases h
    · exact h

theorem decrypt_of_openHs3 {hs3 : Bytes 80} {plain : Bytes 32}
    (h : openHs3 m hs3 p = some plain) :
    m.sstAes128CbcDecrypt p.sessionKey (blobIv hs3) (blobCtext hs3) = some plain := by
  rw [openHs3] at h
  split at h
  · cases h
  · exact h

theorem not_accepted_handleHs1 (hs1 : Bytes 72) :
    ¬ Accepted (handleHs1 m env hs1 p).2 := by
  rintro ⟨np, hs3, hmem⟩
  rcases handleHs1_cases m env hs1 p with hdrop | ⟨_, _, -, -, hanswer⟩
  · rw [hdrop] at hmem
    cases hmem
  · rw [hanswer] at hmem
    cases List.mem_singleton.mp hmem

theorem not_answered_handleHs3 (hs3 : Bytes 80) :
    ¬ Answered (handleHs3 m hs3 p).2 := by
  rintro ⟨macKey, e, np, blob, hmem⟩
  rcases handleHs3_cases m hs3 p with hforgot | ⟨_, -, -, haccept⟩
  · rw [hforgot] at hmem
    cases hmem
  · rw [haccept] at hmem
    cases List.mem_singleton.mp hmem

theorem strictStep_hs1_iff (hs1 : Bytes 72) :
    StrictStep m t p (.hs1 hs1) (handlePicoReport m env (.hs1 hs1) p).2 ↔
      RightUnseen m t env p (.hs1 hs1) := by
  rw [handlePicoReport]
  constructor
  · intro h
    refine ⟨?_, fun hs3 _ hr => (by cases hr)⟩
    rintro _ block ⟨⟩ hblock hpad hbuilt
    obtain ⟨_, block', ⟨⟩, hdecrypt, hstrict⟩ :=
      h.answered ((answered_handleHs1_iff hs1).mpr ⟨block, hblock, hpad, hbuilt⟩)
    rw [decrypt_of_hs1Block hblock] at hdecrypt
    obtain rfl := Option.some.inj hdecrypt
    exact (strictHs1_iff block).mp hstrict
  · intro h
    refine ⟨?_, fun hacc => absurd hacc (not_accepted_handleHs1 hs1)⟩
    intro hanswered
    obtain ⟨block, hblock, hpad, hbuilt⟩ := (answered_handleHs1_iff hs1).mp hanswered
    exact ⟨hs1, block, rfl, decrypt_of_hs1Block hblock,
      (strictHs1_iff block).mpr (h.hs1 hs1 block rfl hblock hpad hbuilt)⟩

/-- The checks that the sender makes. -/
theorem fields_of_hs3Ok {plain : Bytes 32} {saved : Bytes 8}
    (h : hs3Ok plain saved = true) :
    plainIndicator plain = 3 ∧ plainSecond plain = saved := by
  simp only [hs3Ok, Bool.and_eq_true, beq_iff_eq] at h
  exact ⟨h.1.2, h.2⟩

theorem strictStep_hs3_iff (hsaved : SavedSent t p) (hs3 : Bytes 80) :
    StrictStep m t p (.hs3 hs3) (handlePicoReport m env (.hs3 hs3) p).2 ↔
      RightUnseen m t env p (.hs3 hs3) := by
  rw [handlePicoReport]
  constructor
  · intro h
    refine ⟨fun hs1 _ hr => (by cases hr), ?_⟩
    rintro _ plain ⟨⟩ hopen hok
    obtain ⟨_, plain', e, np, ⟨⟩, hdecrypt, hlast, hstrict⟩ :=
      h.accepted ((accepted_handleHs3_iff hs3).mpr ⟨plain, hopen, hok⟩)
    rw [decrypt_of_openHs3 hopen] at hdecrypt
    obtain rfl := Option.some.inj hdecrypt
    obtain ⟨-, hfirst, hsecond, hpad⟩ := (strictHs3_iff e np plain).mp hstrict
    rw [← hfirst] at hlast
    refine ⟨hpad, np, (hsaved.eq_iff _ np).mpr ⟨hlast, ?_⟩⟩
    rw [← hsecond, (fields_of_hs3Ok hok).2]
  · intro h
    refine ⟨fun hans => absurd hans (not_answered_handleHs3 hs3), ?_⟩
    intro haccepted
    obtain ⟨plain, hopen, hok⟩ := (accepted_handleHs3_iff hs3).mp haccepted
    obtain ⟨hpad, np, hnonces⟩ := h.hs3 hs3 plain rfl hopen hok
    obtain ⟨hlast, rfl⟩ := (hsaved.eq_iff _ np).mp hnonces
    obtain ⟨hindicator, hsecond⟩ := fields_of_hs3Ok hok
    exact ⟨hs3, plain, _, _, rfl, decrypt_of_openHs3 hopen, hlast,
      (strictHs3_iff _ _ plain).mpr ⟨hindicator, rfl, hsecond, hpad⟩⟩

/-- A report leads to what it should exactly if the message is right where the sender does
not look. -/
theorem strictStep_iff (h : SavedSent t p) (env : PicoEnv) (r : PicoReport) :
    StrictStep m t p r (handlePicoReport m env r p).2 ↔ RightUnseen m t env p r := by
  by_cases hhs1 : ∃ hs1, r = .hs1 hs1
  · obtain ⟨hs1, rfl⟩ := hhs1
    exact strictStep_hs1_iff hs1
  · by_cases hhs3 : ∃ hs3, r = .hs3 hs3
    · obtain ⟨hs3, rfl⟩ := hhs3
      exact strictStep_hs3_iff h hs3
    · rw [not_exists] at hhs1 hhs3
      obtain ⟨hunanswered, hunaccepted⟩ : ¬ Answered (handlePicoReport m env r p).2 ∧
          ¬ Accepted (handlePicoReport m env r p).2 := silent_of_other hhs1 hhs3
      refine iff_of_true ?_ ?_
      · exact ⟨fun hans => absurd hans hunanswered, fun hacc => absurd hacc hunaccepted⟩
      · exact ⟨fun hs1 _ hr => absurd hr (hhs1 hs1), fun hs3 _ hr => absurd hr (hhs3 hs3)⟩

/-! ## Runs -/

/-- No second message has been sent. -/
def Pico.withoutNonce (p : Pico) : Pico :=
  { p with savedPicoNonce := Bytes.zero 8 }

theorem savedSent_run (p : Pico) (u : PicoUart) (envs : List PicoEnv) :
    SavedSent ((lifiDrain m).trace (p.withoutNonce, u) envs)
      ((lifiDrain m).run (p.withoutNonce, u) envs).1 := by
  induction envs using List.reverseRecOn with
  | nil => exact Or.inl rfl
  | append_singleton envs env ih =>
      rw [Machine.trace_append, Machine.run_append, Machine.trace_cons,
        Machine.trace_nil, List.append_nil]
      exact ih.report env _

/-- The looks at the line, each with what was emitted before it. -/
def EachReport (Q : List PicoOut → PicoEnv → Pico → PicoReport → Prop) (p : Pico)
    (u : PicoUart) (envs : List PicoEnv) : Prop :=
  ∀ before env after, envs = before ++ env :: after →
    let s := (lifiDrain m).run (p.withoutNonce, u) before
    Q ((lifiDrain m).trace (p.withoutNonce, u) before) env s.1 (picoUartIter s.2).1

/-- Over any line and from any installed keys, only strict plaintexts are answered and
accepted exactly if every message that passes the checks is right where they do not
look. -/
theorem strict_plaintexts_iff (m : Mbedtls) (p : Pico) (u : PicoUart)
    (envs : List PicoEnv) :
    EachReport (m := m)
        (fun t env p r => StrictStep m t p r (handlePicoReport m env r p).2) p u envs ↔
      EachReport (m := m) (RightUnseen m) p u envs := by
  refine forall_congr' fun before => forall_congr' fun env => forall_congr' fun after =>
    forall_congr' fun _ => ?_
  exact strictStep_iff (savedSent_run p u before) env _

/-! ## Messages that are wrong where the sender does not look -/

def keyedPico : Pico :=
  { Pico.off Flash.erased with
    sessionKeyId := List.Vector.replicate 8 1
    sessionKey := List.Vector.replicate 16 2
    sessionMacKey := List.Vector.replicate 32 3 }

/-- A block that ends in `01` and has nothing else of a first message. -/
def laxHs1 : Bytes 72 :=
  hs1Message (List.Vector.replicate 8 1) (Bytes.zero 16)
    (Bytes.append (List.Vector.replicate 15 9 : Bytes 15) (List.Vector.replicate 1 1 : Bytes 1))
    (List.Vector.replicate 32 3)

def laxLine : PicoUart where
  challengeState := 0
  line := steady (preamble ++ [msgTypeSstHs1, 0, 72] ++ laxHs1.toList)

/-- The fifth look at the line answers the message. -/
theorem laxHs1_answered :
    ¬ EachReport (m := .transparent) (fun t env p r =>
        StrictStep .transparent t p r (handlePicoReport .transparent env r p).2)
      keyedPico laxLine (List.replicate 5 .salted) := by
  intro h
  have hstep := h (List.replicate 4 .salted) .salted [] rfl
  have hreport : (picoUartIter ((lifiDrain .transparent).run
      (keyedPico.withoutNonce, laxLine)
      (List.replicate 4 .salted)).2).1 = .hs1 laxHs1 := by
    decide +kernel
  dsimp only at hstep
  rw [hreport] at hstep
  have hanswered : Answered (handlePicoReport .transparent .salted
      (.hs1 laxHs1) ((lifiDrain .transparent).run (keyedPico.withoutNonce, laxLine)
        (List.replicate 4 .salted)).1).2 := by
    refine ⟨List.Vector.replicate 32 3, List.Vector.replicate 8 9, Bytes.zero 8,
      hsBlob (Bytes.zero 16) (Mbedtls.padPkcs7 (hsPlain 2 (Bytes.zero 8)
        (List.Vector.replicate 8 9))) (List.Vector.replicate 32 3), ?_⟩
    decide +kernel
  obtain ⟨_, block, ⟨⟩, hdecrypt, hstrict⟩ := hstep.answered hanswered
  obtain rfl : hs1Ctext laxHs1 = block := Option.some.inj hdecrypt
  revert hstrict
  rw [StrictHs1]
  decide +kernel

end LifiAuth
